import Sese.Service.Http.WriteLoop

/-!
# Responses that wait

A response is sent in rounds of `handleWrite`, and the end of a write starts the next
round. When no write is outstanding, a response with octets left must therefore wait for
its windows. Three events break this, since they make it possible to send and start no
round: a WINDOW_UPDATE frame that opens a window, a header block fragment that arrives
for a stream which has been answered already, and the end of a write that is not followed
by a round. Downloads of several ranges also wait while the lines before the next range
do not fit into a window.
-/
namespace Sese.Service.Http

open Foundation Sese.Net.Http

namespace HttpConnectionEx

variable {env : Env} {c c' d : HttpConnectionEx} {id : ℕ} {s s' : HttpStream}

/-- Octets of the response, of its header or its body, are left to send. -/
def hasBytes (s : HttpStream) : Bool :=
  !s.tempBuffer.isEmpty ||
    if s.connType = .fileDownload then
      1 < s.ranges.length || s.ranges.length = 1 && 0 < rangeLeft s
    else !s.response.body.isEmpty

/-- The stream has octets to send, and both windows are open. -/
def Sendable (c : HttpConnectionEx) (s : HttpStream) : Prop :=
  s.doResponse ∧ hasBytes s ∧ 0 < c.endpointWindowSize ∧ 0 < s.endpointWindowSize

instance (c : HttpConnectionEx) (s : HttpStream) : Decidable (c.Sendable s) :=
  inferInstanceAs (Decidable (_ ∧ _))

def NoneStranded (c : HttpConnectionEx) : Prop :=
  c.writes = [] → ∀ id s, c.streams.find? id = some s → ¬ c.Sendable s

/-- The lines before the next range, or those after the last one. -/
def nextLines (s : HttpStream) : Bytes :=
  match s.ranges[s.rangeIterator]? with
  | some range => subheader s range
  | none => endBoundary

/-- A download of several ranges waits until its next lines fit. -/
def LinesWait (c : HttpConnectionEx) (s : HttpStream) : Prop :=
  s.connType = .fileDownload ∧ 1 < s.ranges.length ∧ s.tempBuffer = [] ∧
    s.expectLength ≤ s.realLength ∧ c.remind s < (nextLines s).length

structure RoundReady (c : HttpConnectionEx) : Prop where
  writing : c.isWrite = true → c.writes ≠ []
  frameSize : c.maxFrameSize = localMaxFrameSize

/-- Without an outstanding write, a stream that could send waits for its lines to fit. -/
structure Quiet (c : HttpConnectionEx) : Prop extends c.RoundReady where
  settled : c.writes = [] → ∀ id s, c.streams.find? id = some s → c.Sendable s → c.LinesWait s

theorem not_sendable_of_closed (hzero : c.endpointWindowSize = 0 ∨ s.endpointWindowSize = 0) :
    ¬ c.Sendable s := by
  rintro ⟨-, -, hconn, hstream⟩
  omega

theorem writeDataFrame4Ranges_waits {w : Written} (h : c.writeDataFrame4Ranges id s = .ok w)
    (hframe : w.frame = none) :
    w.stream = s ∧ (c.Sendable s → s.expectLength ≤ s.realLength ∧ c.remind s < (nextLines s).length) := by
  unfold writeDataFrame4Ranges at h
  by_cases hzero : c.endpointWindowSize = 0 ∨ s.endpointWindowSize = 0
  · rw [if_pos hzero] at h
    cases h
    exact ⟨rfl, fun hs => absurd hs (not_sendable_of_closed hzero)⟩
  rw [if_neg hzero] at h
  by_cases hreal : s.realLength ≥ s.expectLength
  · rw [if_pos hreal] at h
    cases hrange : s.ranges[s.rangeIterator]? with
    | some range =>
      simp only [hrange] at h
      split_ifs at h with hlong
      · cases h
        refine ⟨rfl, fun _ => ⟨hreal, ?_⟩⟩
        simpa [nextLines, hrange] using hlong
      · obtain ⟨s₁, -, h⟩ := bind_eq_ok.mp h
        obtain ⟨⟨content, s₂⟩, -, h⟩ := bind_eq_ok.mp h
        cases h
        cases hframe
    | none =>
      simp only [hrange] at h
      split_ifs at h with hlong
      · cases h
        refine ⟨rfl, fun _ => ⟨hreal, ?_⟩⟩
        simpa [nextLines, hrange] using hlong
      · cases h
        cases hframe
  · rw [if_neg hreal] at h
    obtain ⟨⟨content, s₂⟩, -, h⟩ := bind_eq_ok.mp h
    cases h
    cases hframe

/-- A turn without a frame leaves the stream as it is, and it has to wait. -/
theorem writeStream_waits {w : Written} (h : c.writeStream id s = .ok w) (hframe : w.frame = none)
    (hdone : w.done = false) : w.stream = s ∧ (c.Sendable s → c.LinesWait s) := by
  unfold writeStream at h
  split_ifs at h with hresp hdownload hheader hone hmany hheader hbody
  · cases h
    refine ⟨rfl, fun hs => ?_⟩
    simp [hs.1] at hresp
  · cases h
    cases hframe
  · unfold writeDataFrame4SingleRange at h
    split_ifs at h with hzero
    · cases h
      exact ⟨rfl, fun hs => absurd hs (not_sendable_of_closed hzero)⟩
    · obtain ⟨s₁, -, h⟩ := bind_eq_ok.mp h
      obtain ⟨⟨content, s₂⟩, -, h⟩ := bind_eq_ok.mp h
      cases h
      cases hframe
  · have hempty : s.tempBuffer = [] := by simpa using hheader
    obtain ⟨hstream, hwaits⟩ := writeDataFrame4Ranges_waits h hframe
    exact ⟨hstream, fun hs => ⟨hdownload, hmany, hempty, hwaits hs⟩⟩
  · cases h
    cases hframe
  · cases h
    unfold writeDataFrame4Body at hframe ⊢
    split_ifs at hframe ⊢ with hzero
    exact ⟨rfl, fun hs => absurd hs (not_sendable_of_closed hzero)⟩
  · cases h
    cases hdone

theorem applyWritten_windows (c : HttpConnectionEx) (id : ℕ) (w : Written) :
    (c.applyWritten id w).endpointWindowSize = c.endpointWindowSize ∧
      (c.applyWritten id w).maxFrameSize = c.maxFrameSize := by
  unfold applyWritten
  split_ifs <;> cases w.frame <;> exact ⟨rfl, rfl⟩

theorem applyWritten_preVector (c : HttpConnectionEx) (id : ℕ) (w : Written) :
    (c.applyWritten id w).preVector = c.preVector ++ w.frame.toList := by
  unfold applyWritten
  split_ifs <;> cases w.frame <;> simp [pushSent, push, retire, setStream]

theorem writeLoop_preVector {l : List (ℕ × HttpStream)} (h : writeLoop l c = .ok c')
    (hempty : c'.preVector = []) : c.preVector = [] := by
  induction l generalizing c with
  | nil =>
    cases h
    exact hempty
  | cons e l ih =>
    obtain ⟨w, -, h⟩ := bind_eq_ok.mp h
    have hfirst := ih h
    rw [applyWritten_preVector] at hfirst
    exact (List.append_eq_nil_iff.mp hfirst).1

/-- What a stream could send depends on few parts of the connection. -/
theorem waits_congr (hwindow : c'.endpointWindowSize = c.endpointWindowSize)
    (hsize : c'.maxFrameSize = c.maxFrameSize) (hs : c.Sendable s → c.LinesWait s) :
    c'.Sendable s → c'.LinesWait s := by
  unfold Sendable LinesWait remind
  rw [hwindow, hsize]
  exact hs

/-- After a round that has queued nothing, every stream has to wait: the streams of `l`
are still to come, the others have had their turn. -/
theorem writeLoop_settles {l : List (ℕ × HttpStream)} (h : writeLoop l c = .ok c')
    (hempty : c'.preVector = [])
    (hc : ∀ id s, id ∉ l.map Prod.fst → c.streams.find? id = some s →
      c.Sendable s → c.LinesWait s) :
    ∀ id s, c'.streams.find? id = some s → c'.Sendable s → c'.LinesWait s := by
  induction l generalizing c with
  | nil =>
    cases h
    exact fun id s hs => hc id s (List.not_mem_nil) hs
  | cons e l ih =>
    obtain ⟨id, t⟩ := e
    obtain ⟨w, hwrite, h⟩ := bind_eq_ok.mp h
    have hframe : w.frame = none := by
      have hqueue := writeLoop_preVector h hempty
      rw [applyWritten_preVector] at hqueue
      simpa using (List.append_eq_nil_iff.mp hqueue).2
    obtain ⟨hwindow, hsize⟩ := applyWritten_windows c id w
    refine ih h ?_
    intro j s hj hfind
    by_cases hid : j = id
    · cases hdone : w.done with
      | true =>
        rw [hid] at hfind
        simp [applyWritten, hdone, retire] at hfind
      | false =>
        obtain ⟨hsame, hwaits⟩ := writeStream_waits hwrite hframe hdone
        rw [hid] at hfind
        have hs : s = t := by
          simp only [applyWritten, hdone, Bool.false_eq_true, if_false, setStream,
            OrdMap.find?_insert_self, Option.some.injEq] at hfind
          rw [← hfind, hsame]
        rw [hs]
        exact waits_congr hwindow hsize hwaits
    · rw [applyWritten_find?_of_ne hid] at hfind
      refine waits_congr hwindow hsize (hc j s ?_ hfind)
      simp only [List.map_cons, List.mem_cons, not_or]
      exact ⟨hid, hj⟩

theorem RoundReady.handleWrite (hc : c.RoundReady) (h : c.handleWrite = .ok c') : c'.RoundReady := by
  refine handleWrite_invariant (P := RoundReady) ?_ ?_ ?_ ?_ ?_ ?_ h hc
  · exact fun _ hd _ => ⟨hd.writing, hd.frameSize⟩
  · exact fun _ hd => ⟨hd.writing, hd.frameSize⟩
  · exact fun _ _ _ _ hd _ _ => ⟨hd.writing, hd.frameSize⟩
  · exact fun _ _ _ _ hd _ _ _ => ⟨hd.writing, hd.frameSize⟩
  · exact fun _ _ _ _ hd _ _ _ => ⟨hd.writing, hd.frameSize⟩
  · intro d hd _
    unfold flush
    split_ifs
    · exact hd
    · exact ⟨fun _ => by simp [writeBlocks], hd.frameSize⟩

/-- A round leaves a write outstanding, or nothing could be sent. -/
theorem RoundReady.round (hc : c.RoundReady) (h : c.handleWrite = .ok c') : c'.Quiet := by
  refine ⟨hc.handleWrite h, ?_⟩
  obtain ⟨d, hstart, hround⟩ := handleWrite_eq_ok h
  have hd : d.isWrite = c.isWrite ∧ d.writes = c.writes := by
    rcases hstart with rfl | ⟨-, rfl⟩
    · exact ⟨rfl, rfl⟩
    · exact ⟨rfl, rfl⟩
  intro hidle
  rcases hround with ⟨hwrite, rfl⟩ | ⟨-, d', hloop, rfl⟩
  · rw [hd.2] at hidle
    rw [hd.1] at hwrite
    exact absurd hidle (hc.writing hwrite)
  · unfold flush at hidle ⊢
    split_ifs at hidle ⊢ with hqueue
    · refine writeLoop_settles hloop (by simpa using hqueue) ?_
      intro j s hj hfind
      have hnone : d.streams.find? j = none := by
        rw [OrdMap.find?_eq_none_iff]
        intro e he hrank
        exact hj (List.mem_map.mpr ⟨e, he, hrank⟩)
      exact absurd (hnone.symm.trans hfind) (by simp)
    · simp [writeBlocks] at hidle

/-- The streams agree in what they could send. -/
def Alike (s s' : HttpStream) : Prop :=
  ∃ type window request, s' = { s with
    continueType := type
    windowSize := window
    request := request }

theorem Quiet.congr (hc : c.Quiet) (hisWrite : c'.isWrite = c.isWrite)
    (hwrites : c'.writes = c.writes) (hsize : c'.maxFrameSize = c.maxFrameSize)
    (hwindow : c'.endpointWindowSize = c.endpointWindowSize)
    (hstreams : ∀ id s', c'.streams.find? id = some s' →
      s'.doResponse = false ∨ ∃ s, c.streams.find? id = some s ∧ Alike s s') : c'.Quiet := by
  refine ⟨⟨?_, hsize.trans hc.frameSize⟩, ?_⟩
  · rw [hisWrite, hwrites]
    exact hc.writing
  · intro hidle id s' hfind
    rw [hwrites] at hidle
    apply waits_congr hwindow hsize
    rcases hstreams id s' hfind with hno | ⟨s, hs, type, window, request, rfl⟩
    · intro hsend
      have hanswered := hsend.1
      rw [hno] at hanswered
      cases hanswered
    · exact hc.settled hidle id s hs

theorem Quiet.same (hc : c.Quiet) (hisWrite : c'.isWrite = c.isWrite)
    (hwrites : c'.writes = c.writes) (hsize : c'.maxFrameSize = c.maxFrameSize)
    (hwindow : c'.endpointWindowSize = c.endpointWindowSize)
    (hstreams : c'.streams = c.streams) : c'.Quiet := by
  refine hc.congr hisWrite hwrites hsize hwindow ?_
  intro id s hs
  rw [hstreams] at hs
  exact .inr ⟨s, hs, _, _, _, rfl⟩

theorem Quiet.setStream (hc : c.Quiet)
    (hs : s'.doResponse = false ∨ ∃ s, c.streams.find? id = some s ∧ Alike s s') :
    (c.setStream id s').Quiet := by
  refine hc.congr rfl rfl rfl rfl ?_
  intro j t ht
  by_cases hj : j = id
  · rw [hj, show (c.setStream id s').streams = c.streams.insert id s' from rfl,
      OrdMap.find?_insert_self] at ht
    cases ht
    rw [hj]
    exact hs
  · rw [show (c.setStream id s').streams = c.streams.insert id s' from rfl,
      OrdMap.find?_insert_of_ne _ _ hj] at ht
    exact .inr ⟨t, ht, _, _, _, rfl⟩

theorem Quiet.setHeld (hc : c.Quiet) (hheld : c.held id = some s) (hs : Alike s s') :
    (c.setHeld id s').Quiet := by
  unfold HttpConnectionEx.setHeld
  split_ifs with hin
  · refine hc.setStream (.inr ⟨s, ?_, hs⟩)
    obtain ⟨t, ht⟩ := Option.isSome_iff_exists.mp hin
    rw [held, ht] at hheld
    cases hheld
    exact ht
  · exact hc.same rfl rfl rfl rfl rfl

theorem Quiet.retire (hc : c.Quiet) : (c.retire id s).Quiet := by
  refine hc.congr rfl rfl rfl rfl ?_
  intro j t ht
  by_cases hj : j = id
  · rw [hj, show (c.retire id s).streams = c.streams.erase id from rfl,
      OrdMap.find?_erase_self] at ht
    cases ht
  · rw [show (c.retire id s).streams = c.streams.erase id from rfl,
      OrdMap.find?_erase_of_ne _ hj] at ht
    exact .inr ⟨t, ht, _, _, _, rfl⟩

theorem Quiet.of_writes (hc : c.RoundReady) (hwrites : c.writes ≠ []) : c.Quiet :=
  ⟨hc, fun hidle => absurd hidle hwrites⟩

theorem RoundReady.of_same (hc : c.RoundReady) (hisWrite : c'.isWrite = c.isWrite)
    (hwrites : c'.writes = c.writes) (hsize : c'.maxFrameSize = c.maxFrameSize) : c'.RoundReady :=
  ⟨by rw [hisWrite, hwrites]; exact hc.writing, hsize.trans hc.frameSize⟩

theorem RoundReady.pushed {f : Http2Frame} (hc : c.RoundReady) (h : (c.push f).handleWrite = .ok c') :
    c'.Quiet :=
  (hc.of_same rfl rfl rfl : (c.push f).RoundReady).round h

theorem RoundReady.goaway {latest code : ℕ} {msg : Bytes} {once : Bool} (hc : c.RoundReady)
    (h : c.writeGoawayFrame latest code msg once = .ok c') : c'.Quiet := by
  cases once with
  | true =>
    cases h
    refine ⟨⟨fun _ => by simp [writeBlock], hc.frameSize⟩, ?_⟩
    intro hidle
    simp [writeBlock] at hidle
  | false =>
    have hobserved : (c.observe (.goaway c.frame code)).RoundReady := hc.of_same rfl rfl rfl
    exact hobserved.pushed h

/-- The increment of a WINDOW_UPDATE frame is added to a window. -/
def appliesUpdate (c : HttpConnectionEx) : Bool :=
  let i := fromBigEndian (c.slice 0 4)
  !c.interrupts && c.frame.type = frameTypeWindowUpdate && c.frame.length = 4 && i ≠ 0 &&
    if c.frame.ident = 0 then !isAdditionOverflow (toInt32 c.endpointInitWindowSize) (toInt32 i)
    else (c.streams.find? c.frame.ident).any fun s =>
      !isAdditionOverflow (toInt32 s.endpointWindowSize) (toInt32 i)

/-- With the increment both windows of a stream with octets to send are open. -/
def opensWindow (c : HttpConnectionEx) (id : ℕ) (s : HttpStream) : Bool :=
  let i := fromBigEndian (c.slice 0 4)
  s.doResponse && hasBytes s &&
    if c.frame.ident = 0 then
      0 < (c.endpointWindowSize + i) % 2 ^ 32 && 0 < s.endpointWindowSize
    else
      c.frame.ident = id && 0 < c.endpointWindowSize && 0 < (s.endpointWindowSize + i) % 2 ^ 32

/-- A window is opened for a stream that could send then, and no write is outstanding
whose end would start a round. -/
def strandsByUpdate (c : HttpConnectionEx) : Bool :=
  c.writes.isEmpty && c.appliesUpdate && c.streams.entries.any fun e => c.opensWindow e.1 e.2

/-- The header block is complete, and the request goes on with DATA frames. -/
def blockParks (env : Env) (c : HttpConnectionEx) (s : HttpStream) : Bool :=
  match HPackUtil.decode env.indet s.tempBuffer s.tempBuffer.length c.reqDynamicTable
    s.request.header false true c.headerTableSize with
  | .error _ => false
  | .ok (code, d) =>
    code = 0 && (convertFromHttp2 { s.request with header := d.header }).2 && !s.endStream

/-- The fragment is stored, and more frames are waited for. -/
def fragmentParks (env : Env) (c : HttpConnectionEx) (s : HttpStream) : Bool :=
  !c.dependsOnItself && c.paddedLength ≤ c.frame.length &&
    (!(c.withFragment s).endHeaders || blockParks env c (c.withFragment s))

/-- A header block fragment is put behind the header of a response, which shares its
buffer, and no write is outstanding. -/
def strandsByFragment (env : Env) (c : HttpConnectionEx) : Bool :=
  c.writes.isEmpty && !c.interrupts && c.takesFragment &&
    c.fragmentStart.any fun p => p.2.doResponse && fragmentParks env p.1 p.2

/-- The last outstanding write ends, and no round follows. -/
def endsSending (c : HttpConnectionEx) : Event → Bool
  | .written i => c.writes[i]? = some .once && (c.writes.eraseIdx i).isEmpty
  | .writeFailed i => (c.writes.eraseIdx i).isEmpty
  | _ => false

/-- The condition on a step: no stream is stranded by it. -/
structure SendsOn (c : HttpConnectionEx) (e : Env × Event) : Prop where
  update : ∀ c₀ ∈ c.delivered e.2, c₀.strandsByUpdate = false
  fragment : ∀ c₀ ∈ c.delivered e.2, strandsByFragment e.1 c₀ = false
  ends : c.endsSending e.2 → ∀ s ∈ c.streams.entries, ¬ c.Sendable s.2

instance (c : HttpConnectionEx) (e : Env × Event) : Decidable (c.SendsOn e) :=
  decidable_of_iff ((∀ c₀ ∈ c.delivered e.2, c₀.strandsByUpdate = false) ∧
    (∀ c₀ ∈ c.delivered e.2, strandsByFragment e.1 c₀ = false) ∧
    (c.endsSending e.2 → ∀ s ∈ c.streams.entries, ¬ c.Sendable s.2))
    ⟨fun h => ⟨h.1, h.2.1, h.2.2⟩, fun h => ⟨h.update, h.fragment, h.ends⟩⟩

theorem mem_entries_of_find? (h : c.streams.find? id = some s) : (id, s) ∈ c.streams.entries := by
  obtain ⟨e, he, hs⟩ := Option.map_eq_some_iff.mp h
  have hid : e.1 = id := by simpa using List.find?_some he
  obtain ⟨j, t⟩ := e
  cases hid
  cases hs
  exact List.mem_of_find?_eq_some he

theorem Quiet.windowUpdate (hc : c.Quiet) (hint : c.interrupts = false)
    (htype : c.frame.type = frameTypeWindowUpdate) (hno : c.strandsByUpdate = false)
    (h : c.handleWindowUpdate = .ok c') : c'.Quiet := by
  unfold handleWindowUpdate at h
  dsimp only at h
  have hopens (hidle : c.writes = []) (happlies : c.appliesUpdate = true) {j : ℕ} {t : HttpStream}
      (ht : c.streams.find? j = some t) : c.opensWindow j t = false := by
    have hall : (c.streams.entries.any fun e => c.opensWindow e.1 e.2) = false := by
      simpa [strandsByUpdate, hidle, happlies] using hno
    rw [List.any_eq_false] at hall
    simpa using hall _ (mem_entries_of_find? ht)
  split_ifs at h with hlen hzero hident hover
  · exact hc.goaway h
  · exact hc.goaway h
  · exact hc.goaway h
  · cases h
    have happlies : c.appliesUpdate = true := by
      simp only [ne_eq, not_not] at hlen
      simp [appliesUpdate, hint, htype, hlen, hzero, hident, hover]
    refine ⟨hc.toRoundReady.of_same rfl rfl rfl, ?_⟩
    intro hidle j t ht hsend
    have hclosed := hopens hidle happlies ht
    obtain ⟨hresp, hbytes, hconn, hstream⟩ := hsend
    simp only [opensWindow, hident, hresp, hbytes, if_true, Bool.true_and, Bool.and_eq_false_iff,
      decide_eq_false_iff_not] at hclosed
    exact absurd hclosed (not_or.mpr ⟨not_not.mpr hconn, not_not.mpr hstream⟩)
  · split at h
    · cases h
      exact hc.same rfl rfl rfl rfl rfl
    · rename_i s hfind
      split_ifs at h with hover
      · exact (hc.setStream (.inr ⟨s, hfind, _, _, _, rfl⟩)).pushed h
      · cases h
        have happlies : c.appliesUpdate = true := by
          simp only [ne_eq, not_not] at hlen
          simp [appliesUpdate, hint, htype, hlen, hzero, hident, hfind, hover]
        refine ⟨hc.toRoundReady.of_same rfl rfl rfl, ?_⟩
        intro hidle j t ht hsend
        by_cases hj : j = c.frame.ident
        · have ht' := (OrdMap.find?_insert_self ..).symm.trans (hj ▸ ht)
          cases ht'
          have hclosed := hopens hidle happlies hfind
          obtain ⟨hresp, hbytes, hconn, hstream⟩ := hsend
          have hresp' : s.doResponse = true := hresp
          have hbytes' : hasBytes s = true := hbytes
          simp only [opensWindow, hident, hresp', hbytes', if_false, decide_true, Bool.true_and,
            Bool.and_eq_false_iff, decide_eq_false_iff_not] at hclosed
          exact absurd hclosed (not_or.mpr ⟨not_not.mpr hconn, not_not.mpr hstream⟩)
        · have ht' : c.streams.find? j = some t := (OrdMap.find?_insert_of_ne _ _ hj).symm.trans ht
          exact hc.settled hidle j t ht' hsend

theorem Quiet.goawayFrame (hc : c.Quiet) (h : c.handleGoawayFrame = .ok c') : c'.Quiet := by
  unfold handleGoawayFrame at h
  split_ifs at h
  · exact hc.goaway h
  · have hrest : ∀ d : HttpConnectionEx, d.Quiet →
        (if d.frame.length < 8 then .error .overread
        else if d.slice 8 (d.frame.length - 8) = bytes "shutdown" then .ok d
        else .ok d.readFrameHeader : Except Fault HttpConnectionEx) = .ok c' → c'.Quiet := by
      intro d hd h
      split_ifs at h
      · cases h
        exact hd
      · cases h
        exact hd.same rfl rfl rfl rfl rfl
    apply hrest _ _ h
    split
    · rename_i s hfind
      exact hc.setStream (.inr ⟨s, hfind, _, _, _, rfl⟩)
    · exact hc

theorem Quiet.rstStream (hc : c.Quiet) (h : c.handleRstStreamFrame env = .ok c') : c'.Quiet := by
  unfold handleRstStreamFrame at h
  dsimp only at h
  split_ifs at h
  · exact hc.goaway h
  · exact hc.goaway h
  · cases h
    exact hc.same rfl rfl rfl rfl rfl
  · split at h
    · exact hc.goaway h
    · cases h
      rename_i s _
      have hretired : (c.retire c.frame.ident s).Quiet := hc.retire
      exact hretired.same rfl rfl rfl rfl rfl

theorem Quiet.openStream (hc : c.Quiet) : (c.openStream id).Quiet := by
  have hset : (c.setStream id { endpointWindowSize := c.endpointInitWindowSize }).Quiet :=
    hc.setStream (.inl rfl)
  exact hset.same rfl rfl rfl rfl rfl

theorem Quiet.notePriority (hc : c.Quiet)
    (hs : s.doResponse = false ∨ ∃ t, c.streams.find? c.frame.ident = some t ∧ Alike t s)
    (h : c.notePriority s = .ok c') : c'.Quiet := by
  have hnoted : (c.setStream c.frame.ident { s with continueType := c.frame.type }).Quiet := by
    refine hc.setStream ?_
    rcases hs with hno | ⟨t, ht, _, _, _, rfl⟩
    · exact .inl hno
    · exact .inr ⟨t, ht, _, _, _, rfl⟩
  unfold HttpConnectionEx.notePriority at h
  dsimp only at h
  split_ifs at h
  · exact hnoted.goaway h
  · cases h
    exact hnoted.same rfl rfl rfl rfl rfl

theorem Quiet.priority (hc : c.Quiet) (h : c.handlePriorityFrame = .ok c') : c'.Quiet := by
  unfold handlePriorityFrame at h
  dsimp only at h
  split_ifs at h
  · exact hc.goaway h
  · exact hc.goaway h
  · split at h
    · exact hc.openStream.notePriority (.inl rfl) h
    · rename_i s hfind
      exact hc.notePriority (.inr ⟨s, hfind, _, _, _, rfl⟩) h

theorem Quiet.ping (hc : c.Quiet) (h : c.handlePingFrame = .ok c') : c'.Quiet := by
  unfold handlePingFrame at h
  split_ifs at h
  · exact hc.goaway h
  · exact hc.goaway h
  · exact hc.goaway h
  · exact hc.pushed h

/-- The frame size that the server uses does not change: the least value allowed is the
largest it takes. -/
theorem applySetting_maxFrameSize {ident value code : ℕ}
    (h : c.applySetting ident value = .ok (code, c')) (hc : c.maxFrameSize = localMaxFrameSize) :
    c'.maxFrameSize = localMaxFrameSize := by
  cases applySetting_outcome h with
  | maxFrameSize _ hlow =>
    have hle : localMaxFrameSize ≤ value := hlow
    exact min_eq_right hle
  | headerTableSize | maxConcurrentStreams | frameSizeRefused | enablePush | pushRefused
  | maxHeaderListSize | initialWindowSize | windowRefused | unknown => exact hc

theorem Quiet.settings {code : ℕ} (hc : c.Quiet) (h : c.handleSettingsFrame = .ok (code, c')) :
    c'.Quiet := by
  refine handleSettingsFrame_invariant (P := Quiet) ?_ ?_ h hc
  · intro c ident value code c' hone hc
    have hsize := (applySetting_maxFrameSize hone hc.frameSize).trans hc.frameSize.symm
    obtain ⟨_, _, _, _, _, _, _, _, _, rfl, -⟩ := applySetting_eq hone
    exact hc.same rfl rfl hsize rfl rfl
  · intro c hc
    exact hc.same rfl rfl rfl rfl rfl

theorem RoundReady.setStream (hc : c.RoundReady) : (c.setStream id s).RoundReady := hc.of_same rfl rfl rfl

theorem RoundReady.respond {d : HttpConnectionEx} (hc : c.RoundReady) (h : c.respond env id s = .ok (d, s')) :
    d.RoundReady := by
  obtain ⟨-, table, rfl, -⟩ := respond_spec h
  exact hc.of_same rfl rfl rfl

/-- A header block that is complete. The stream is not one that has been answered, or a
write is outstanding, unless the handler starts a round. -/
theorem Quiet.headersEnd (hc : c.Quiet)
    (hs : blockParks env c s = true → s.doResponse = false ∨ c.writes ≠ [])
    (h : c.headersEnd env s = .ok c') : c'.Quiet := by
  unfold HttpConnectionEx.headersEnd at h
  obtain ⟨⟨code, t⟩, hdecode, h⟩ := bind_eq_ok.mp h
  have hready (o : List Obs) : { c with
      reqDynamicTable := t.table
      trace := o }.RoundReady := hc.toRoundReady.of_same rfl rfl rfl
  dsimp only at h
  split_ifs at h with hcode hconvert hend
  · exact ((hready _).setStream).goaway h
  · exact ((hready _).setStream).goaway h
  · obtain ⟨⟨d, s'⟩, hrespond, h⟩ := bind_eq_ok.mp h
    exact (((hready _).respond hrespond).setStream).round h
  · cases h
    have hparks : blockParks env c s = true := by
      unfold blockParks
      rw [hdecode]
      simp only [ne_eq, not_not] at hcode
      simp only [Bool.not_eq_true', Bool.not_eq_false] at hconvert
      simp only [hcode, hconvert, decide_true, Bool.true_and, Bool.not_eq_true']
      simpa using hend
    rcases hs hparks with hno | hwrites
    · have hset (r : HttpStream) (hr : r.doResponse = false) :
          (c.setStream c.frame.ident r).Quiet := hc.setStream (.inl hr)
      exact (hset _ (by exact hno)).same rfl rfl rfl rfl rfl
    · exact .of_writes (hc.toRoundReady.of_same rfl rfl rfl) hwrites

theorem Quiet.headersFragment (hc : c.Quiet)
    (hs : fragmentParks env c s = true → s.doResponse = false ∨ c.writes ≠ [])
    (h : c.headersFragment env s = .ok c') : c'.Quiet := by
  unfold HttpConnectionEx.headersFragment at h
  dsimp only at h
  split_ifs at h with hself hpad hwrap hdone
  · exact (hc.toRoundReady.setStream).goaway h
  · exact (hc.toRoundReady.setStream).goaway h
  · have hobserved : (c.observe (.fragment c.frame (c.slice (fragmentOffset c.frame)
        (c.frame.length - c.paddedLength - fragmentOffset c.frame)))).Quiet :=
      hc.same rfl rfl rfl rfl rfl
    refine hobserved.headersEnd (s := c.withFragment s) ?_ h
    intro hparks
    refine hs ?_
    have hfits : c.paddedLength ≤ c.frame.length := by omega
    simp only [fragmentParks, hself, hfits, Bool.not_false, decide_true, Bool.true_and,
      Bool.or_eq_true]
    exact .inr hparks
  · cases h
    have hfits : c.paddedLength ≤ c.frame.length := by omega
    have hparks : fragmentParks env c s = true := by
      have hopen : (c.withFragment s).endHeaders = false := by simpa [withFragment] using hdone
      simp [fragmentParks, hself, hfits, hopen]
    rcases hs hparks with hno | hwrites
    · have hset : (c.setStream c.frame.ident (c.withFragment s)).Quiet := hc.setStream (.inl hno)
      exact hset.same rfl rfl rfl rfl rfl
    · exact .of_writes (hc.toRoundReady.of_same rfl rfl rfl) hwrites

theorem Quiet.headers (hc : c.Quiet) (hint : c.interrupts = false) (htype : isHeaders c.frame)
    (hno : strandsByFragment env c = false) (h : c.handleFrameHeader env = .ok c') : c'.Quiet := by
  have hcases : _ ∨ ∃ d s, _ ∧ _ ∧ c.handleFrameHeader env = _ :=
    handleFrameHeader_headers hint htype
  rcases hcases with ⟨-, latest, code, msg, once, hgoaway⟩ | ⟨d, s, htakes, hstart, hfragment⟩
  · rw [hgoaway] at h
    exact hc.goaway h
  · rw [hfragment] at h
    have hd : d.Quiet ∧ d.writes = c.writes := by
      rcases fragmentStart_cases hstart with ⟨rfl, -⟩ | ⟨rfl, -⟩
      · exact ⟨hc, rfl⟩
      · have hopened : (c.openStream c.frame.ident).Quiet := hc.openStream
        exact ⟨hopened.same rfl rfl rfl rfl rfl, rfl⟩
    refine hd.1.headersFragment ?_ h
    intro hparks
    rw [hd.2]
    simp only [strandsByFragment, hint, htakes, hstart, hparks, Option.any_some, Bool.not_false,
      Bool.and_true, Bool.and_eq_false_iff, List.isEmpty_eq_false_iff] at hno
    exact hno.symm

theorem Quiet.dataEnd (hc : c.Quiet) (h : c.dataEnd env = .ok c') : c'.Quiet := by
  unfold HttpConnectionEx.dataEnd at h
  dsimp only at h
  split_ifs at h
  · obtain ⟨s, -, h⟩ := withHeld_eq_ok h
    split_ifs at h
    · exact hc.goaway h
    · exact hc.goaway h
    · obtain ⟨⟨d, s'⟩, hrespond, h⟩ := bind_eq_ok.mp h
      have hd := hc.toRoundReady.respond hrespond
      refine RoundReady.round ?_ h
      unfold HttpConnectionEx.setHeld
      split_ifs
      · exact hd.setStream
      · exact hd.of_same rfl rfl rfl
  · cases h
    exact hc.same rfl rfl rfl rfl rfl

theorem Quiet.dataBody (hc : c.Quiet) (h : c.dataBody env = .ok c') : c'.Quiet := by
  unfold HttpConnectionEx.dataBody at h
  dsimp only at h
  obtain ⟨s, hheld, h⟩ := withHeld_eq_ok h
  split_ifs at h
  · exact hc.goaway h
  · exact hc.dataEnd h
  · exact (hc.setHeld hheld ⟨_, _, _, rfl⟩).dataEnd h
  · exact hc.dataEnd h
  · exact (hc.setHeld hheld ⟨_, _, _, rfl⟩).dataEnd h

theorem Quiet.replenish (hc : c.Quiet) (h : c.replenish = .ok c') : c'.Quiet := by
  unfold HttpConnectionEx.replenish at h
  split_ifs at h
  · obtain ⟨d, hpush, h⟩ := bind_eq_ok.mp h
    cases h
    exact (hc.pushed hpush).same rfl rfl rfl rfl rfl
  · cases h
    exact hc

theorem Quiet.replenishStream (hc : c.Quiet) (h : c.replenishStream = .ok c') : c'.Quiet := by
  unfold HttpConnectionEx.replenishStream at h
  obtain ⟨s, -, h⟩ := withHeld_eq_ok h
  split_ifs at h
  · obtain ⟨d, hpush, h⟩ := bind_eq_ok.mp h
    obtain ⟨s', hheld, h⟩ := withHeld_eq_ok h
    cases h
    exact (hc.pushed hpush).setHeld hheld ⟨_, _, _, rfl⟩
  · cases h
    exact hc

theorem Quiet.dataAccept (hc : c.Quiet) (h : c.dataAccept env = .ok c') : c'.Quiet := by
  unfold HttpConnectionEx.dataAccept at h
  dsimp only at h
  obtain ⟨s, hheld, h⟩ := withHeld_eq_ok h
  split_ifs at h
  · exact (hc.setHeld hheld ⟨_, _, _, rfl⟩).goaway h
  · obtain ⟨d, hfirst, h⟩ := bind_eq_ok.mp h
    obtain ⟨d', hsecond, h⟩ := bind_eq_ok.mp h
    have hobserved : ({ c with windowSize := c.windowSize - c.frame.length }.observe
        (.accepted c.frame.ident c.frame.length)).Quiet := hc.same rfl rfl rfl rfl rfl
    have haccept : (c.acceptData c.frame s).Quiet := hobserved.setHeld hheld ⟨_, _, _, rfl⟩
    exact ((haccept.replenish hfirst).replenishStream hsecond).dataBody h

theorem Quiet.data (hc : c.Quiet) (h : c.handleDataFrame env = .ok c') : c'.Quiet := by
  unfold handleDataFrame at h
  dsimp only at h
  split_ifs at h
  · exact hc.goaway h
  · exact hc.goaway h
  · exact hc.goaway h
  · split at h
    · exact hc.goaway h
    · split_ifs at h
      · obtain ⟨d, hgoaway, h⟩ := bind_eq_ok.mp h
        exact (hc.goaway hgoaway).dataAccept h
      · exact hc.dataAccept h

theorem Quiet.frame (hc : c.Quiet) (hupdate : c.strandsByUpdate = false)
    (hfragment : strandsByFragment env c = false) (h : c.handleFrameHeader env = .ok c') :
    c'.Quiet := by
  cases hheaders : isHeaders c.frame with
  | true =>
    cases hint : c.interrupts with
    | true =>
      rw [handleFrameHeader_interrupts hint] at h
      exact hc.goaway h
    | false => exact hc.headers hint hheaders hfragment h
  | false =>
    revert h
    refine handleFrameHeader_rule (P := fun r => r = .ok c' → c'.Quiet)
      ?goaway ?settings ?update ?goawayFrame ?headers ?data ?priority ?rstStream ?ping
    case goaway => exact fun _ _ => hc.goaway
    case settings =>
      intro _ _ h
      obtain ⟨⟨code, d⟩, hsettings, h⟩ := bind_eq_ok.mp h
      have hd := hc.settings hsettings
      dsimp only at h
      split_ifs at h
      · cases h
        exact hd.same rfl rfl rfl rfl rfl
      · exact hd.pushed h
      · cases h
        exact hd
    case update => exact fun hint htype => hc.windowUpdate hint htype hupdate
    case goawayFrame => exact fun _ _ => hc.goawayFrame
    case headers => exact fun _ htype => absurd htype (by simp [hheaders])
    case data => exact fun _ _ => hc.data
    case priority => exact fun _ _ => hc.priority
    case rstStream => exact fun _ _ => hc.rstStream
    case ping => exact fun _ _ => hc.ping

theorem RoundReady.of_idle (hwrite : c.isWrite = false) (hsize : c.maxFrameSize = localMaxFrameSize) :
    c.RoundReady := by
  refine ⟨fun h => ?_, hsize⟩
  rw [hwrite] at h
  cases h

theorem Quiet.endWrite {i : ℕ} (hc : c.Quiet)
    (hends : (c.writes.eraseIdx i).isEmpty → ∀ s ∈ c.streams.entries, ¬ c.Sendable s.2) :
    (c.endWrite i).disponse.Quiet := by
  refine ⟨.of_idle rfl hc.frameSize, ?_⟩
  intro hidle id s hfind hsend
  have hempty : (c.writes.eraseIdx i).isEmpty := by
    rw [List.isEmpty_iff]
    exact hidle
  exact absurd hsend (hends hempty _ (mem_entries_of_find? hfind))

theorem Quiet.outcome {e : Event} (hc : c.Quiet) (hok : c.SendsOn (env, e))
    (h : Outcome env c e c') : c'.Quiet := by
  cases h with
  | more | stranger | header | readFailed => exact hc.same rfl rfl rfl rfl rfl
  | @greeted i op data f _ _ _ h =>
    have hready : ({ c.received i op data with expectAck := true }.push f).RoundReady :=
      hc.toRoundReady.of_same rfl rfl rfl
    exact hready.round h
  | tooLong =>
    refine .of_writes ⟨fun _ => by simp [writeBlock], hc.frameSize⟩ ?_
    simp [writeBlock]
  | @frame i op data _ _ _ hc₀ hdel _ h =>
    have hquiet : ((c.received i op data).observe (.recv c.frame)).Quiet :=
      hc.same rfl rfl rfl rfl rfl
    rw [hc₀] at h hdel
    exact hquiet.frame (hok.update _ hdel) (hok.fragment _ hdel) h
  | @written i _ _ h =>
    have hready : (c.endWrite i).RoundReady := .of_idle rfl hc.frameSize
    exact hready.round h
  | lastWritten hop =>
    refine hc.endWrite fun hempty => hok.ends ?_
    simp only [endsSending, hop, decide_true, Bool.true_and]
    exact hempty
  | writeFailed => exact hc.endWrite fun hempty => hok.ends hempty

/-- In every run in which no event strands a stream, in every state without an
outstanding write in which no download waits for its lines to fit, no stream could send. -/
theorem none_stranded {es : List (Env × Event)} (hrun : RunWhere step SendsOn start es c)
    (hlines : ∀ id s, c.streams.find? id = some s → ¬ c.LinesWait s) : c.NoneStranded := by
  have hstart : start.Quiet := by
    refine ⟨.of_idle rfl rfl, ?_⟩
    intro _ id s hs
    cases hs
  have hquiet : c.Quiet := run_invariant Quiet hstart (fun _ _ _ _ hc hok hout =>
    hc.outcome hok hout) hrun
  intro hidle id s hs hsend
  exact hlines id s hs (hquiet.settled hidle id s hs hsend)

/-- The client announces that streams begin with a window of 0, and sends a request,
which is answered with one octet of DATA. -/
def closedRequest : List (Env × Event) :=
  greeting (servletService [1]) ++
    incoming (servletService [1]) frameTypeSettings 0 0 ([0, 4] ++ toBigEndian32 0) ++
    [(servletService [1], .written 0)] ++
    incoming (servletService [1]) frameTypeHeaders 5 1 getRequest

def openWindow : List (Env × Event) :=
  incoming (servletService [1]) frameTypeWindowUpdate 0 1 (toBigEndian32 10)

/-- The window is opened before the header of the response has been written. -/
theorem none_stranded_in_time : ∃ c, RunWhere step SendsOn start
    (closedRequest ++ openWindow ++
      [(servletService [1], .written 0), (servletService [1], .written 0)]) c ∧
    c.writes = [] ∧ c.closedStreams = {1} ∧ c.NoneStranded := by
  obtain ⟨c, hrun, hc⟩ := exists_run_of_any step SendsOn start (closedRequest ++ openWindow ++
      [(servletService [1], .written 0), (servletService [1], .written 0)])
    (fun c : HttpConnectionEx => c.writes = [] ∧ c.closedStreams = {1} ∧ c.streams.size = 0)
    (by decide +kernel)
  simp only [decide_eq_true_eq] at hc
  obtain ⟨hwrites, hclosed, hsize⟩ := hc
  refine ⟨c, hrun, hwrites, hclosed, none_stranded hrun ?_⟩
  intro id s hs
  have hnone := mem_entries_of_find? hs
  rw [List.length_eq_zero_iff.mp hsize] at hnone
  cases hnone

/-- The window is opened when the header of the response has been written. -/
theorem lateUpdate_strands : ∃ c, RunWhere step Unrestricted start
    (closedRequest ++ [(servletService [1], .written 0)] ++ openWindow) c ∧ ¬ c.NoneStranded := by
  obtain ⟨c, hrun, hc⟩ := exists_run_of_any step Unrestricted start
    (closedRequest ++ [(servletService [1], .written 0)] ++ openWindow)
    (fun c : HttpConnectionEx => c.writes = [] ∧ (c.streams.find? 1).any fun s => c.Sendable s)
    (by decide +kernel)
  simp only [decide_eq_true_eq] at hc
  refine ⟨c, hrun, fun hnone => ?_⟩
  cases hs : c.streams.find? 1 with
  | none => simp [hs] at hc
  | some s =>
    rw [hs] at hc
    exact hnone hc.1 1 s hs (by simpa using hc.2)

end HttpConnectionEx
end Sese.Service.Http
