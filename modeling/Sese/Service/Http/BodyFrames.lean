import Sese.Io.ByteQueue
import Sese.Service.Http.ResponseCourse

/-!
# The DATA frames of a response

The octets that were sent and those that are left make the body at any time; the frame after which
none is left ends the stream. The body is a list here; the buffer that holds it in the source is
read in the same pieces.
-/
namespace Sese.Service.Http

open Foundation Sese.Io Sese.Net.Http

namespace HttpConnectionEx

variable {c c' c₀ : HttpConnectionEx} {id : ℕ} {s : HttpStream} {stream : Option HttpStream}
  {w : Written} {block body rest : Bytes} {fs ds rs : List Http2Frame} {f : Http2Frame}
  {t : List Obs}

def isData (f : Http2Frame) : Bool := f.type = frameTypeData

def dataFrames (id : ℕ) (fs : List Http2Frame) : List Http2Frame :=
  fs.filter fun f => f.ident = id && isData f

/-- What was sent of the body, among all the frames that were queued. -/
structure BodySent (id : ℕ) (body : Bytes) (fs : List Http2Frame) : Prop where
  begins : payloads (dataFrames id fs) <+: body
  ends : ∀ pre f post, dataFrames id fs = pre ++ f :: post →
    (f.hasFlag frameFlagEndStream = true ↔ payloads (pre ++ [f]) = body)
  last : ∀ pre f post, responseFrames id fs = pre ++ f :: post → isData f = true →
    f.hasFlag frameFlagEndStream = true → post = []

theorem dataFrames_eq (id : ℕ) (fs : List Http2Frame) :
    dataFrames id fs = (responseFrames id fs).filter isData := by
  unfold dataFrames responseFrames
  rw [List.filter_filter]
  apply List.filter_congr
  intro f _
  cases h : isData f with
  | false => simp
  | true =>
    have htype : f.type = frameTypeData := of_decide_eq_true h
    simp [isResponse, htype]

structure Unfinished (body rest : Bytes) (ds : List Http2Frame) : Prop where
  split : payloads ds ++ rest = body
  open_ : ds ≠ [] → rest ≠ []
  flags : ∀ f ∈ ds, f.hasFlag frameFlagEndStream = false

theorem Unfinished.start (body : Bytes) : Unfinished body body [] where
  split := rfl
  open_ := absurd rfl
  flags := fun _ hf => by cases hf

theorem Unfinished.ends (h : Unfinished body rest ds) (pre post : List Http2Frame)
    (hds : ds = pre ++ f :: post) : f.hasFlag frameFlagEndStream = false ∧
      payloads (pre ++ [f]) ≠ body := by
  subst hds
  constructor
  · apply h.flags
    simp
  · intro heq
    have hsplit := h.split
    rw [List.append_cons, payloads_append, heq, List.append_assoc] at hsplit
    have hempty := List.append_right_eq_self.mp hsplit
    exact h.open_ (by simp) (List.append_eq_nil_iff.mp hempty).2

theorem Unfinished.append (h : Unfinished body (f.payload ++ rest) ds) (hne : rest ≠ [])
    (hflag : f.hasFlag frameFlagEndStream = false) : Unfinished body rest (ds ++ [f]) where
  split := by rw [payloads_append, payloads_singleton, List.append_assoc, h.split]
  open_ := fun _ => hne
  flags := by
    intro g hg
    rcases List.mem_append.mp hg with hg | hg
    · exact h.flags g hg
    · rw [List.mem_singleton.mp hg]
      exact hflag

theorem Unfinished.ends_last (h : Unfinished body f.payload ds)
    (hflag : f.hasFlag frameFlagEndStream = true) (pre post : List Http2Frame) {g : Http2Frame}
    (hds : ds ++ [f] = pre ++ g :: post) :
    g.hasFlag frameFlagEndStream = true ↔ payloads (pre ++ [g]) = body := by
  rcases List.eq_nil_or_concat post with rfl | ⟨post, last, rfl⟩
  · obtain ⟨rfl, hlast⟩ := List.append_inj' hds rfl
    obtain rfl := (List.cons.inj hlast).1
    have hwhole : payloads (ds ++ [f]) = body := by
      rw [payloads_append, payloads_singleton, h.split]
    simp only [hflag, hwhole]
  · rw [List.concat_eq_append, ← List.cons_append, ← List.append_assoc] at hds
    obtain ⟨hgflag, hshort⟩ := h.ends pre post (List.append_inj' hds rfl).1
    simp only [hgflag, hshort, Bool.false_eq_true]

/-- How far the body has come. A stream without a body ends with its header. -/
inductive Sending (body : Bytes) : List Http2Frame → Option HttpStream → Prop
  | sending {rs : List Http2Frame} {s : HttpStream} {block rest : Bytes}
      (hresp : Responding block rest s) (hdata : Unfinished body rest (rs.filter isData)) :
      Sending body rs (some s)
  | empty {rs : List Http2Frame} (hdata : rs.filter isData = []) : Sending body rs none
  | completed {rs : List Http2Frame} {f : Http2Frame} (htype : isData f = true)
      (hdata : Unfinished body f.payload (rs.filter isData))
      (hflag : f.hasFlag frameFlagEndStream = true) : Sending body (rs ++ [f]) none

theorem Sending.of_answer {stream' : Option HttpStream} (h : Sending body rs stream)
    (hanswer : stream'.map answer = stream.map answer) : Sending body rs stream' := by
  cases h with
  | sending hresp hdata =>
    obtain ⟨s', rfl, hs'⟩ := Option.map_eq_some_iff.mp hanswer
    exact .sending (hresp.of_answer hs') hdata
  | empty hdata =>
    obtain rfl := Option.map_eq_none_iff.mp hanswer
    exact .empty hdata
  | completed htype hdata hflag =>
    obtain rfl := Option.map_eq_none_iff.mp hanswer
    exact .completed htype hdata hflag

/-- With an open window a DATA frame takes the front of what is left; it carries END_STREAM when
nothing is left then. -/
theorem writeDataFrame4Body_spec (hresp : Responding block body s)
    (hw : w = c.writeDataFrame4Body id s) :
    w = ⟨none, s, false⟩ ∨ ∃ f, w.frame = some f ∧ isData f = true ∧
      f.payload = body.take (c.remind s) ∧
      (f.hasFlag frameFlagEndStream = true ↔ body.drop (c.remind s) = []) ∧
      Responding block (body.drop (c.remind s)) w.stream ∧
      (w.done = true ↔ body.drop (c.remind s) = []) := by
  subst hw
  unfold writeDataFrame4Body
  split_ifs with hwindow
  · exact .inl rfl
  · refine .inr ⟨_, rfl, rfl, ?_, ?_, ?_, ?_⟩
    · rw [payload_of_length rfl, ← hresp.body]
    · rw [← hresp.body]
      cases s.response.body.drop (c.remind s) <;> simp [Http2FrameInfo.hasFlag, frameFlagEndStream]
    · exact ⟨hresp.doResponse, hresp.connType, hresp.block,
        congrArg (List.drop (c.remind s)) hresp.body⟩
    · rw [← hresp.body]
      exact List.isEmpty_iff

theorem Sending.turn (h : Sending body rs (some s)) (hwrite : c.writeStream id s = .ok w) :
    Sending body (rs ++ w.frame.toList) (if w.done then none else some w.stream) := by
  cases h with
  | @sending _ _ block rest hresp hdata =>
    rcases hresp.turn hwrite with ⟨-, rfl⟩ | ⟨-, hne, hw⟩ | ⟨-, hempty, rfl⟩
    · -- a HEADERS frame, which ends the stream when there is no body
      have hkeep : (rs ++ (c.writeHeadersFrame id s true).frame.toList).filter isData =
          rs.filter isData := by
        rw [List.filter_append]
        exact List.append_nil _
      by_cases hdone : (c.writeHeadersFrame id s true).done = true
      · rw [if_pos hdone]
        apply Sending.empty
        rw [hkeep]
        by_contra hds
        apply hdata.open_ hds
        rw [← hresp.body]
        exact List.isEmpty_iff.mp hdone
      · rw [if_neg hdone]
        have hrest : Responding (block.drop c.maxFrameSize) rest
            (c.writeHeadersFrame id s true).stream :=
          ⟨hresp.doResponse, hresp.connType, congrArg (List.drop c.maxFrameSize) hresp.block,
            hresp.body⟩
        apply Sending.sending hrest
        rwa [hkeep]
    · rcases writeDataFrame4Body_spec hresp hw with rfl | ⟨f, hframe, htype, hpayload, hflag, hrest, hdone⟩
      · exact .sending hresp (by rwa [Option.toList_none, List.append_nil])
      · rw [hframe, Option.toList_some]
        by_cases hlast : rest.drop (c.remind s) = []
        · rw [if_pos (hdone.mpr hlast)]
          have hall : f.payload = rest := by
            rw [hpayload, List.take_of_length_le (List.drop_eq_nil_iff.mp hlast)]
          exact .completed htype (hall ▸ hdata) (hflag.mpr hlast)
        · rw [if_neg fun h => hlast (hdone.mp h)]
          apply Sending.sending hrest
          rw [List.filter_append, List.filter_cons, if_pos htype, List.filter_nil]
          apply Unfinished.append _ hlast
          · rw [Bool.eq_false_iff]
            exact fun h => hlast (hflag.mp h)
          · rwa [hpayload, List.take_append_drop]
    · apply Sending.empty
      rw [Option.toList_none, List.append_nil]
      by_contra hds
      exact hdata.open_ hds hempty

theorem filter_isData {rs pre post : List Http2Frame} (hrs : rs = pre ++ f :: post)
    (htype : isData f = true) :
    rs.filter isData = pre.filter isData ++ f :: post.filter isData := by
  rw [hrs, List.filter_append, List.filter_cons, if_pos htype]

theorem Unfinished.bodySent (h : Unfinished body rest ((responseFrames id fs).filter isData)) :
    BodySent id body fs := by
  have hds := dataFrames_eq id fs
  constructor
  · rw [hds]
    exact ⟨_, h.split⟩
  · intro pre f post hpre
    obtain ⟨hflag, hshort⟩ := h.ends pre post (hds.symm.trans hpre)
    simp only [hflag, hshort, Bool.false_eq_true]
  · intro pre f post hpre htype hflag
    obtain ⟨hflag', -⟩ := h.ends _ _ (filter_isData hpre htype)
    rw [hflag'] at hflag
    cases hflag

theorem Unfinished.bodySent_last (hframes : responseFrames id fs = rs ++ [f])
    (h : Unfinished body f.payload (rs.filter isData)) (htype : isData f = true)
    (hflag : f.hasFlag frameFlagEndStream = true) : BodySent id body fs := by
  have hds : dataFrames id fs = rs.filter isData ++ [f] := by
    rw [dataFrames_eq, hframes, filter_isData rfl htype]
    rfl
  constructor
  · rw [hds, payloads_append, payloads_singleton, h.split]
  · intro pre g post hpre
    exact h.ends_last hflag pre post (hds.symm.trans hpre)
  · intro pre g post hpre hg hgflag
    have hsplit := hframes.symm.trans hpre
    rcases List.eq_nil_or_concat post with rfl | ⟨post, last, rfl⟩
    · rfl
    · rw [List.concat_eq_append, ← List.cons_append, ← List.append_assoc] at hsplit
      have hrs := (List.append_inj' hsplit rfl).1
      obtain ⟨hgflag', -⟩ := h.ends _ _ (filter_isData hrs hg)
      rw [hgflag'] at hgflag
      cases hgflag

theorem Sending.bodySent (h : Sending body (responseFrames id fs) stream) :
    BodySent id body fs := by
  generalize hframes : responseFrames id fs = rs at h
  cases h with
  | sending hresp hdata => exact Unfinished.bodySent (hframes ▸ hdata)
  | empty hdata =>
    have hwhole : Unfinished body body ((responseFrames id fs).filter isData) := by
      rw [hframes, hdata]
      exact .start body
    exact hwhole.bodySent
  | completed htype hdata hflag => exact hdata.bodySent_last hframes htype hflag

theorem Course.sending {writes : List HttpConnectionEx} (h : Course answer id writes c₀ c)
    (hfind : c₀.streams.find? id = some s) (hresp : Responding block body s) :
    ∃ t, c.trace = t ++ c₀.trace ∧
      Sending body (responseFrames id (queued t)) (c.streams.find? id) := by
  apply h.invariant (P := fun _ rs stream => Sending body rs stream)
  · rw [hfind]
    exact .sending hresp (.start body)
  · intro writes rs c hP _
    exact hP
  · intro writes rs c s w hP _ _ hwrite
    exact hP.turn hwrite
  · intro writes rs s s' hP hanswer
    exact hP.of_answer hanswer

theorem demand_le_remind (c : HttpConnectionEx) (s : HttpStream) : c.demand s ≤ c.remind s := by
  unfold demand
  split_ifs
  · exact min_le_left _ _
  · exact Nat.zero_le _

/-- No DATA frame of a call of `handleWrite` is larger than the windows and `max_frame_size`. -/
theorem handleWrite_data_le (h : c.handleWrite = .ok c') (ht : c'.trace = t ++ c.trace)
    (hfind : c.streams.find? id = some s) (hf : f ∈ dataFrames id (queued t)) :
    f.payload.length ≤ min (min c.endpointWindowSize s.endpointWindowSize) c.maxFrameSize := by
  obtain ⟨t', ht', hround⟩ := handleWrite_turn h id
  obtain rfl : t = t' := List.append_cancel_right (ht.symm.trans ht')
  rw [dataFrames_eq] at hf
  obtain ⟨hmem, htype⟩ := List.mem_filter.mp hf
  rcases hround with ⟨-, hnone, -⟩ | ⟨-, s', hfind', w, hwrite, hframes, -⟩
  · rw [hnone] at hmem
    cases hmem
  · obtain rfl : s = s' := Option.some.inj (hfind.symm.trans hfind')
    rw [hframes, Option.mem_toList] at hmem
    obtain ⟨-, hheaders | ⟨-, hle⟩⟩ := (writeStream_turn hwrite).2 f hmem
    · simp [isData, hheaders, frameTypeHeaders, frameTypeData] at htype
    · rw [length_payload]
      exact hle.trans (demand_le_remind c s)

/-- `writeDataFrame4Body` on the buffer that `getBody` returns: the frame, the buffer, the result. -/
def writeDataFrame4Buffer (c : HttpConnectionEx) (id window : ℕ) (body : AbstractByteBuffer) :
    Except Fault (Option Http2Frame × AbstractByteBuffer × Bool) :=
  if c.endpointWindowSize = 0 ∨ window = 0 then .ok (none, body, false)
  else do
    let (content, body) ← body.read (min (min c.endpointWindowSize window) c.maxFrameSize)
    let result ← body.eof
    return (some {
      type := frameTypeData
      flags := if result then frameFlagEndStream else 0
      ident := id
      length := content.length
      content := content }, body, result)

/-- A buffer that holds the body is read as the list is. -/
theorem writeDataFrame4Buffer_eq {b : AbstractByteBuffer} {q : CursorQueue UInt8}
    (hb : b.Represents q) (hbody : q.unread = s.response.body) (c : HttpConnectionEx) (id : ℕ) :
    ∃ b' q', c.writeDataFrame4Buffer id s.endpointWindowSize b =
        .ok ((c.writeDataFrame4Body id s).frame, b', (c.writeDataFrame4Body id s).done) ∧
      b'.Represents q' ∧ q'.unread = (c.writeDataFrame4Body id s).stream.response.body := by
  unfold writeDataFrame4Buffer writeDataFrame4Body
  split_ifs with hwindow
  · exact ⟨b, q, rfl, hb, hbody⟩
  · obtain ⟨b', hread, hb'⟩ := hb.read_eq (c.remind s)
    have hrest : (q.advance (c.remind s)).unread = s.response.body.drop (c.remind s) := by
      rw [CursorQueue.unread_advance, hbody]
    refine ⟨b', q.advance (c.remind s), ?_, hb', hrest⟩
    have hread' : b.read (min (min c.endpointWindowSize s.endpointWindowSize) c.maxFrameSize) =
        .ok (s.response.body.take (c.remind s), b') := by
      rw [← hbody]
      exact hread
    rw [hread', ok_bind]
    dsimp only
    rw [hb'.eof_eq, ok_bind, hrest]
    cases s.response.body.drop (c.remind s) <;> rfl

/-- In every course of a general response the DATA frames are a beginning of its body, END_STREAM is
on the frame that completes it and on no other, and nothing is sent of the response after it. No
frame exceeds a window or `max_frame_size`, and a buffer that holds the body gives these frames. -/
theorem body_sent {writes : List HttpConnectionEx} (h : Course answer id writes c₀ c)
    (hfind : c₀.streams.find? id = some s) (hresp : Responding block body s)
    (ht : c.trace = t ++ c₀.trace) :
    BodySent id body (queued t) ∧
      (∀ d ∈ writes, ∀ d' u s, d.handleWrite = .ok d' → d'.trace = u ++ d.trace →
        d.streams.find? id = some s → ∀ f ∈ dataFrames id (queued u),
          f.payload.length ≤ min (min d.endpointWindowSize s.endpointWindowSize) d.maxFrameSize) ∧
      ∀ d ∈ writes, ∀ s b q, d.streams.find? id = some s → AbstractByteBuffer.Represents b q →
        q.unread = s.response.body → b.eof = .ok s.response.body.isEmpty ∧
          ∃ b' q', d.writeDataFrame4Buffer id s.endpointWindowSize b =
              .ok ((d.writeDataFrame4Body id s).frame, b', (d.writeDataFrame4Body id s).done) ∧
            b'.Represents q' ∧ q'.unread = (d.writeDataFrame4Body id s).stream.response.body := by
  obtain ⟨t', ht', hsending⟩ := h.sending hfind hresp
  obtain rfl : t = t' := List.append_cancel_right (ht.symm.trans ht')
  refine ⟨hsending.bodySent, ?_, ?_⟩
  · intro d _ d' u s hwrite hu hs f hf
    exact handleWrite_data_le hwrite hu hs hf
  · intro d _ s b q _ hb hbody
    constructor
    · rw [hb.eof_eq, hbody]
      cases s.response.body <;> rfl
    · exact writeDataFrame4Buffer_eq hb hbody d id

theorem body_sent_whole : ∃ c, (responding [] [104, 105]).handleWrite = .ok c ∧
    c.streams.find? 1 = none ∧ BodySent 1 [104, 105] (queued c.trace) ∧
    ∀ f ∈ dataFrames 1 (queued c.trace), f.payload.length ≤ 16384 := by
  obtain ⟨c, hc, hnone⟩ : ∃ c, (responding [] [104, 105]).handleWrite = .ok c ∧
      c.streams.find? 1 = none := ⟨_, rfl, rfl⟩
  obtain ⟨hsent, hle, -⟩ := body_sent (.write (.refl _) hc) (responding_find? _ _)
    (generalResponse_responding _ _) (List.append_nil _).symm
  exact ⟨c, hc, hnone, hsent, hle _ List.mem_cons_self c _ _ hc (List.append_nil _).symm
    (responding_find? _ _)⟩

end HttpConnectionEx
end Sese.Service.Http
