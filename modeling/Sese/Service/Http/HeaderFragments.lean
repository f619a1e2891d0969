import Sese.Service.Http.ResponseCourse

/-!
# The fragments of a response header block

A header block that fits in one frame at the turn of its stream is sent whole, in one HEADERS frame
with END_HEADERS. Of a longer one every further fragment would be a HEADERS frame again, and a
response without a body ends with the first fragment.
-/
namespace Sese.Service.Http

open Foundation Sese.Net.Http

namespace HttpConnectionEx

variable {c c₀ : HttpConnectionEx} {id : ℕ} {s : HttpStream} {stream : Option HttpStream}
  {w : Written} {block : Bytes} {fit : Prop} {fs hs : List Http2Frame} {t : List Obs}

def headerFrames (id : ℕ) (fs : List Http2Frame) : List Http2Frame :=
  fs.filter fun f => f.ident = id && isHeaders f.toHttp2FrameInfo

/-- No octet of the header block is left: there is no stream, or it is past its header. -/
def HeaderOver (stream : Option HttpStream) : Prop := ∀ s, stream = some s → s.tempBuffer = []

/-- The header block was sent as it ought to be, among all the frames that were queued. -/
structure HeaderSent (id : ℕ) (block : Bytes) (fs : List Http2Frame) (stream : Option HttpStream) :
    Prop where
  begins : payloads (headerFrames id fs) <+: block
  whole : HeaderOver stream → payloads (headerFrames id fs) = block
  type : ∀ pre f post, headerFrames id fs = pre ++ f :: post →
    f.type = if pre = [] then frameTypeHeaders else frameTypeContinuation
  contiguous : headerFrames id fs <:+: fs
  endHeaders : ∀ pre f post, headerFrames id fs = pre ++ f :: post →
    (f.hasFlag frameFlagEndHeaders = true ↔ post = [] ∧ payloads (pre ++ [f]) = block)
  endStream : ∀ pre f post, headerFrames id fs = pre ++ f :: post →
    f.hasFlag frameFlagEndStream = true → payloads (pre ++ [f]) = block

/-- At a turn that the stream has on this connection, what is left of its header block fits in one
frame. -/
def HeaderFits (id : ℕ) (c : HttpConnectionEx) : Prop :=
  c.isWrite = false → ∀ s, c.streams.find? id = some s → s.tempBuffer.length ≤ c.maxFrameSize

theorem headerFrames_eq (id : ℕ) (fs : List Http2Frame) :
    headerFrames id fs = (responseFrames id fs).filter fun f => isHeaders f.toHttp2FrameInfo := by
  unfold headerFrames responseFrames
  rw [List.filter_filter]
  apply List.filter_congr
  intro f _
  simp only [isResponse]
  cases isHeaders f.toHttp2FrameInfo <;> simp

/-- The block is in one frame, or it is empty and there is no frame. -/
def Delivered (block : Bytes) (hs : List Http2Frame) : Prop :=
  block = [] ∧ hs = [] ∨ block ≠ [] ∧ ∃ f, hs = [f] ∧ f.type = frameTypeHeaders ∧
    f.payload = block ∧ f.hasFlag frameFlagEndHeaders = true

/-- How far the header block has come, where `fit` says that it has fitted at every turn. -/
inductive Progress (block : Bytes) (fit : Prop) : List Http2Frame → Option HttpStream → Prop
  | waiting {s : HttpStream} {body : Bytes} (hfit : fit) (hresp : Responding block body s)
      (hne : block ≠ []) : Progress block fit [] (some s)
  | sent {hs : List Http2Frame} {stream : Option HttpStream} (hfit : fit)
      (hdelivered : Delivered block hs)
      (hresp : ∀ s, stream = some s → ∃ body, Responding [] body s) : Progress block fit hs stream
  | partly {f : Http2Frame} {s : HttpStream} {rest body : Bytes} (hfit : ¬fit)
      (hresp : Responding rest body s) (hne : rest ≠ []) : Progress block fit [f] (some s)
  | closed {hs : List Http2Frame} (hfit : ¬fit) (hshort : payloads hs ≠ block) :
      Progress block fit hs none
  | repeated {f g : Http2Frame} {l : List Http2Frame} {stream : Option HttpStream} (hfit : ¬fit)
      (htype : g.type = frameTypeHeaders) : Progress block fit (f :: g :: l) stream

theorem Progress.start {body : Bytes} (h : Responding block body s) :
    Progress block True [] (some s) := by
  by_cases hne : block = []
  · subst hne
    exact .sent trivial (.inl ⟨rfl, rfl⟩) fun s' hs' => ⟨body, Option.some.inj hs' ▸ h⟩
  · exact .waiting trivial h hne

theorem Progress.of_answer {stream' : Option HttpStream} (h : Progress block fit hs stream)
    (hanswer : stream'.map answer = stream.map answer) : Progress block fit hs stream' := by
  cases h with
  | waiting hfit hresp hne =>
    obtain ⟨s', rfl, hs'⟩ := Option.map_eq_some_iff.mp hanswer
    exact .waiting hfit (hresp.of_answer hs') hne
  | sent hfit hdelivered hresp =>
    apply Progress.sent hfit hdelivered
    intro s' hs'
    subst hs'
    obtain ⟨s, hs, heq⟩ := Option.map_eq_some_iff.mp hanswer.symm
    obtain ⟨body, hbody⟩ := hresp s hs
    exact ⟨body, hbody.of_answer heq.symm⟩
  | partly hfit hresp hne =>
    obtain ⟨s', rfl, hs'⟩ := Option.map_eq_some_iff.mp hanswer
    exact .partly hfit (hresp.of_answer hs') hne
  | closed hfit hshort =>
    obtain rfl := Option.map_eq_none_iff.mp hanswer
    exact .closed hfit hshort
  | repeated hfit htype => exact .repeated hfit htype

/-- A turn with octets of the header left sends a HEADERS frame of them, with END_HEADERS on the
last, and ends the stream when there is no body. -/
theorem writeHeadersFrame_spec {body : Bytes} (hresp : Responding block body s)
    (hw : w = c.writeHeadersFrame id s true) :
    ∃ f, w.frame = some f ∧ f.type = frameTypeHeaders ∧ f.payload = block.take c.maxFrameSize ∧
      (block.length ≤ c.maxFrameSize → f.hasFlag frameFlagEndHeaders = true) ∧
      Responding (block.drop c.maxFrameSize) body w.stream ∧ (w.done = true ↔ body = []) := by
  subst hw
  refine ⟨_, rfl, rfl, ?_, ?_, ?_, ?_⟩
  · rw [payload_of_length rfl, ← hresp.block]
  · intro hle
    have hempty : (s.tempBuffer.drop c.maxFrameSize).isEmpty = true := by
      rw [hresp.block, List.drop_eq_nil_of_le hle]
      rfl
    cases s.response.body.isEmpty <;> simp [Http2FrameInfo.hasFlag, hempty] <;> decide
  · exact ⟨hresp.doResponse, hresp.connType, congrArg (List.drop c.maxFrameSize) hresp.block,
      hresp.body⟩
  · rw [← hresp.body]
    exact List.isEmpty_iff

/-- After the header a turn sends DATA or ends the stream. -/
theorem Responding.past_header {body : Bytes} (hresp : Responding [] body s)
    (hwrite : c.writeStream id s = .ok w) :
    w.frame.toList.filter (fun f => isHeaders f.toHttp2FrameInfo) = [] ∧
      ∃ rest, Responding [] rest w.stream := by
  rcases hresp.turn hwrite with ⟨hne, -⟩ | ⟨-, -, rfl⟩ | ⟨-, -, rfl⟩
  · exact absurd rfl hne
  · unfold writeDataFrame4Body
    split_ifs
    · exact ⟨rfl, body, hresp⟩
    · exact ⟨rfl, _, hresp.doResponse, hresp.connType, hresp.block, rfl⟩
  · exact ⟨rfl, body, hresp⟩

theorem Progress.turn (h : Progress block fit hs (some s)) (hwrite : c.writeStream id s = .ok w) :
    Progress block (fit ∧ s.tempBuffer.length ≤ c.maxFrameSize)
      (hs ++ w.frame.toList.filter fun f => isHeaders f.toHttp2FrameInfo)
      (if w.done then none else some w.stream) := by
  cases h with
  | @waiting _ body hfit hresp hne =>
    rcases hresp.turn hwrite with ⟨-, hw⟩ | ⟨hempty, -⟩ | ⟨hempty, -⟩
    · obtain ⟨f, hframe, htype, hpayload, hflag, hrest, hdone⟩ := writeHeadersFrame_spec hresp hw
      have hheaders : isHeaders f.toHttp2FrameInfo = true := by simp [isHeaders, htype]
      simp only [hframe, Option.toList_some, List.filter_cons, hheaders, if_true, List.filter_nil,
        List.nil_append]
      by_cases hle : block.length ≤ c.maxFrameSize
      · rw [List.take_of_length_le hle] at hpayload
        rw [List.drop_eq_nil_of_le hle] at hrest
        apply Progress.sent ⟨hfit, by rwa [hresp.block]⟩
        · exact .inr ⟨hne, f, rfl, htype, hpayload, hflag hle⟩
        · intro s' hs'
          split_ifs at hs'
          exact ⟨body, Option.some.inj hs' ▸ hrest⟩
      · have hfit' : ¬(fit ∧ s.tempBuffer.length ≤ c.maxFrameSize) := by
          rw [hresp.block]
          exact fun h => hle h.2
        by_cases hbody : body = []
        · -- END_STREAM although a part of the block is left
          rw [if_pos (hdone.mpr hbody)]
          apply Progress.closed hfit'
          intro heq
          have hlength := congrArg List.length heq
          rw [payloads_singleton, hpayload, List.length_take] at hlength
          omega
        · rw [if_neg (fun h => hbody (hdone.mp h))]
          apply Progress.partly hfit' hrest
          intro hnil
          exact hle (List.drop_eq_nil_iff.mp hnil)
    · exact absurd hempty hne
    · exact absurd hempty hne
  | sent hfit hdelivered hresp =>
    obtain ⟨body, hbody⟩ := hresp s rfl
    obtain ⟨hnone, rest, hrest⟩ := hbody.past_header hwrite
    rw [hnone, List.append_nil]
    apply Progress.sent ⟨hfit, by rw [hbody.block]; exact Nat.zero_le _⟩ hdelivered
    intro s' hs'
    split_ifs at hs'
    exact ⟨rest, Option.some.inj hs' ▸ hrest⟩
  | partly hfit hresp hne =>
    -- the next fragment is a HEADERS frame too
    rcases hresp.turn hwrite with ⟨-, hw⟩ | ⟨hempty, -⟩ | ⟨hempty, -⟩
    · obtain ⟨g, hframe, htype, -⟩ := writeHeadersFrame_spec hresp hw
      have hheaders : isHeaders g.toHttp2FrameInfo = true := by simp [isHeaders, htype]
      simp only [hframe, Option.toList_some, List.filter_cons, hheaders, if_true, List.filter_nil,
        List.singleton_append]
      exact .repeated (fun h => hfit h.1) htype
    · exact absurd hempty hne
    · exact absurd hempty hne
  | repeated hfit htype => exact .repeated (fun h => hfit h.1) htype

theorem HeaderSent.of_none (hframes : headerFrames id fs = [])
    (hover : HeaderOver stream → block = []) : HeaderSent id block fs stream where
  begins := by rw [hframes]; exact List.nil_prefix
  whole := fun h => by rw [hframes, hover h]; rfl
  type := fun pre f post h => by simp [hframes] at h
  contiguous := by rw [hframes]; exact List.nil_infix
  endHeaders := fun pre f post h => by simp [hframes] at h
  endStream := fun pre f post h => by simp [hframes] at h

theorem HeaderSent.of_one {f : Http2Frame} (hframes : headerFrames id fs = [f])
    (htype : f.type = frameTypeHeaders) (hpayload : f.payload = block)
    (hflag : f.hasFlag frameFlagEndHeaders = true) : HeaderSent id block fs stream := by
  have honly : ∀ pre g post, headerFrames id fs = pre ++ g :: post →
      pre = [] ∧ g = f ∧ post = [] := by
    intro pre g post h
    rw [hframes] at h
    cases pre with
    | nil =>
      obtain ⟨rfl, rfl⟩ := List.cons.inj h
      exact ⟨rfl, rfl, rfl⟩
    | cons a pre => simp at h
  have hall : payloads (headerFrames id fs) = block := by
    rw [hframes, payloads_singleton, hpayload]
  constructor
  · rw [hall]
  · exact fun _ => hall
  · intro pre g post h
    obtain ⟨rfl, rfl, rfl⟩ := honly pre g post h
    exact htype
  · have hmem : f ∈ fs := by
      apply List.mem_of_mem_filter (p := fun f => f.ident = id && isHeaders f.toHttp2FrameInfo)
      change f ∈ headerFrames id fs
      rw [hframes]
      exact List.mem_singleton_self f
    obtain ⟨l, r, rfl⟩ := List.append_of_mem hmem
    rw [hframes]
    exact ⟨l, r, by simp⟩
  · intro pre g post h
    obtain ⟨rfl, rfl, rfl⟩ := honly pre g post h
    simp [hflag, hpayload]
  · intro pre g post h _
    obtain ⟨rfl, rfl, rfl⟩ := honly pre g post h
    simpa using hpayload

theorem Progress.headerSent (h : Progress block fit (headerFrames id fs) stream) (hfit : fit) :
    HeaderSent id block fs stream := by
  generalize hframes : headerFrames id fs = hs at h
  cases h with
  | waiting _ hresp hne =>
    apply HeaderSent.of_none hframes
    intro hover
    exact absurd (hresp.block.symm.trans (hover _ rfl)) hne
  | sent _ hdelivered _ =>
    rcases hdelivered with ⟨rfl, rfl⟩ | ⟨-, f, rfl, htype, hpayload, hflag⟩
    · exact .of_none hframes fun _ => rfl
    · exact .of_one hframes htype hpayload hflag
  | partly hnot => exact absurd hfit hnot
  | closed hnot => exact absurd hfit hnot
  | repeated hnot => exact absurd hfit hnot

theorem Progress.fit_of_headerSent (h : Progress block fit (headerFrames id fs) stream)
    (hover : HeaderOver stream) (hsent : HeaderSent id block fs stream) : fit := by
  generalize hframes : headerFrames id fs = hs at h
  cases h with
  | waiting hfit => exact hfit
  | sent hfit => exact hfit
  | partly _ hresp hne => exact absurd (hresp.block.symm.trans (hover _ rfl)) hne
  | closed _ hshort => exact absurd (hframes ▸ hsent.whole hover) hshort
  | @repeated f g l _ _ htype =>
    have hsecond := hsent.type [f] g l hframes
    rw [htype, if_neg (List.cons_ne_nil f [])] at hsecond
    exact absurd hsecond (by decide)

theorem forall_headerFits_append {writes : List HttpConnectionEx} :
    (∀ d ∈ writes ++ [c], HeaderFits id d) ↔ (∀ d ∈ writes, HeaderFits id d) ∧ HeaderFits id c := by
  simp only [List.forall_mem_append, List.forall_mem_singleton]

theorem Course.progress {writes : List HttpConnectionEx} {body : Bytes}
    (h : Course answer id writes c₀ c) (hfind : c₀.streams.find? id = some s)
    (hresp : Responding block body s) :
    ∃ t, c.trace = t ++ c₀.trace ∧
      Progress block (∀ d ∈ writes, HeaderFits id d) (headerFrames id (queued t))
        (c.streams.find? id) := by
  simp only [headerFrames_eq]
  apply h.invariant (P := fun writes rs stream => Progress block (∀ d ∈ writes, HeaderFits id d)
    (rs.filter fun f => isHeaders f.toHttp2FrameInfo) stream)
  · rw [hfind]
    simpa using Progress.start hresp
  · intro writes rs c hP hpass
    have hfits : HeaderFits id c := by
      intro hw s hs
      rcases hpass with hpass | hpass
      · rw [hw] at hpass
        cases hpass
      · rw [hpass] at hs
        cases hs
    simpa only [forall_headerFits_append, hfits, and_true] using hP
  · intro writes rs c s w hP hs hw hwrite
    have hfits : HeaderFits id c ↔ s.tempBuffer.length ≤ c.maxFrameSize := by
      simp [HeaderFits, hw, hs]
    simpa only [forall_headerFits_append, hfits, List.filter_append] using hP.turn hwrite
  · intro writes rs s s' hP hanswer
    exact hP.of_answer hanswer

/-- In a course whose turns all have the rest of the header block fit in one frame, the block is
sent as it ought to be; and where the header is over and was sent so, it has fitted at every turn. -/
theorem header_sent {writes : List HttpConnectionEx} {body : Bytes} (h : Course answer id writes c₀ c)
    (hfind : c₀.streams.find? id = some s) (hresp : Responding block body s)
    (ht : c.trace = t ++ c₀.trace) :
    ((∀ d ∈ writes, HeaderFits id d) → HeaderSent id block (queued t) (c.streams.find? id)) ∧
      (HeaderOver (c.streams.find? id) → HeaderSent id block (queued t) (c.streams.find? id) →
        ∀ d ∈ writes, HeaderFits id d) := by
  obtain ⟨t', ht', hprogress⟩ := h.progress hfind hresp
  obtain rfl : t = t' := List.append_cancel_right (ht.symm.trans ht')
  constructor
  · exact hprogress.headerSent
  · exact hprogress.fit_of_headerSent

theorem header_sent_status : ∃ c, (responding [0x88] [104, 105]).handleWrite = .ok c ∧
    HeaderSent 1 [0x88] (queued c.trace) (c.streams.find? 1) ∧
    ∀ d ∈ [responding [0x88] [104, 105]], HeaderFits 1 d := by
  obtain ⟨c, hc, hover⟩ : ∃ c, (responding [0x88] [104, 105]).handleWrite = .ok c ∧
      (c.streams.find? 1).map (·.tempBuffer) = some [] := ⟨_, rfl, rfl⟩
  have hall := header_sent (.write (.refl _) hc) (responding_find? _ _)
    (generalResponse_responding _ _) (List.append_nil _).symm
  have hsent := hall.1 fun d hd _ s hs => by
    cases List.mem_singleton.mp hd
    cases hs
    decide
  refine ⟨c, hc, hsent, hall.2 ?_ hsent⟩
  intro s hs
  rw [hs] at hover
  exact Option.some.inj hover

/-- `:status: 200` and a field of 16400 octets. -/
def longBlock : Bytes := [0x88, 0x40, 1, 120, 127, 145, 127] ++ List.replicate 16400 90

/-- END_STREAM goes out with the first 16384 of 16407 octets. -/
theorem header_cut_off : ∃ c, (responding longBlock []).handleWrite = .ok c ∧
    c.streams.find? 1 = none ∧ ¬HeaderSent 1 longBlock (queued c.trace) (c.streams.find? 1) := by
  obtain ⟨c, hc, hnone⟩ : ∃ c, (responding longBlock []).handleWrite = .ok c ∧
      c.streams.find? 1 = none := ⟨_, rfl, rfl⟩
  obtain ⟨t, ht, hprogress⟩ := ((Course.refl _).write hc).progress (responding_find? _ _)
    (generalResponse_responding longBlock [])
  obtain rfl : c.trace = t := ht.trans (List.append_nil t)
  refine ⟨c, hc, hnone, ?_⟩
  intro hsent
  have hover : HeaderOver (c.streams.find? 1) := by
    intro s hs
    rw [hnone] at hs
    cases hs
  have hfits := hprogress.fit_of_headerSent hover hsent _ List.mem_cons_self rfl _
    (responding_find? _ _)
  have hlength : longBlock.length = 16407 := by
    rw [longBlock, List.length_append, List.length_replicate]
    rfl
  change longBlock.length ≤ 16384 at hfits
  omega

end HttpConnectionEx
end Sese.Service.Http
