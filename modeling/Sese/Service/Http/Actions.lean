import Mathlib.Logic.Relation
import Sese.Service.Http.WriteRound

/-!
# What a frame can do to a connection

`Action env c₀` lists the changes that the handling of one frame consists of. `c₀`
is the connection at the entry of `handleFrameHeader`; the guards of an action say
what is known about `c₀` and about the connection at the moment of the action.
`handleFrameHeader_actions` is the inversion of all handlers at once: whatever
frame arrives, the connection goes from `c₀` to its next state by such actions. A
property of connections is therefore kept by every frame if it is kept by every
action.
-/
namespace Sese.Service.Http

open Foundation Sese.Net.Http

namespace HttpConnectionEx

/-- The frame creates a stream. -/
def opens (c : HttpConnectionEx) : Bool :=
  c.frame.ident ≠ 0 && c.frame.ident % 2 = 1 && !c.streams.contains c.frame.ident &&
    (c.frame.type = frameTypeHeaders && c.frame.ident ∉ c.closedStreams &&
        !(c.frame.ident < c.latestStreamIdent) && c.streams.size ≤ localMaxConcurrentStreams ||
      c.frame.type = frameTypePriority && c.frame.length = 5)

/-- The frame is answered past the queue, without a look at `is_write`. -/
def answersOnce (c : HttpConnectionEx) : Bool :=
  !c.interrupts &&
    (c.frame.type = frameTypePing && c.frame.ident ≠ 0 ||
      c.frame.type = frameTypeHeaders && c.frame.ident % 2 = 1 &&
        c.frame.ident ∉ c.closedStreams && !c.streams.contains c.frame.ident &&
        !(c.frame.ident < c.latestStreamIdent) && c.streams.size > localMaxConcurrentStreams)

/-- The frame is DATA that comes to the check of the windows. -/
def checksWindows (c : HttpConnectionEx) : Bool :=
  !c.interrupts && c.frame.type = frameTypeData && !c.expectAck && c.frame.ident % 2 = 1 &&
    c.frame.ident ∉ c.closedStreams && c.streams.contains c.frame.ident

/-- The frame is DATA that passes the check of the windows. -/
def acceptsData (c : HttpConnectionEx) : Bool :=
  c.checksWindows && c.frame.length ≤ c.windowSize &&
    (c.streams.find? c.frame.ident).any fun s => c.frame.length ≤ s.windowSize

/-- The handler of DATA queues a frame before it comes to its end: the stream had
ended, or a window is to be replenished. -/
def queuesFrame (c : HttpConnectionEx) : Bool :=
  (c.streams.find? c.frame.ident).any fun s =>
    s.endStream || c.windowSize - c.frame.length < localInitWindowSize / 2 ||
      s.windowSize - c.frame.length < localInitWindowSize / 2

/-- The frame is DATA that does not end its stream, and makes the handler queue a
frame before it reads on. -/
def queuesOnTheWay (c : HttpConnectionEx) : Bool :=
  c.acceptsData && !c.frame.hasFlag frameFlagEndStream && c.paddedLength ≤ c.frame.length &&
    c.queuesFrame

/-- The octets of a DATA frame that go to the body of the request: none when a filter
has refused it. -/
def bodyOctets (c : HttpConnectionEx) (s : HttpStream) : ℕ :=
  if s.connType = .filter then 0
  else if c.frame.hasFlag frameFlagPadded then c.frame.length - c.paddedLength - 1
  else c.frame.length

/-- The checks at the end of `handleDataFrame`, for a stream as it is before the
frame. -/
def completesRequest (c : HttpConnectionEx) (s : HttpStream) : Bool :=
  let header := s.request.header
  (s.connType = .filter || !header.exist (bytes "content-length") ||
      toUInt64 (toInteger (header.get (bytes "content-length") [])) =
        s.request.body.length + c.bodyOctets s) &&
    !header.exist (bytes "te") && !header.exist (bytes "trailer")

/-- The frame is DATA with END_STREAM that passes all checks of `handleDataFrame`. -/
def endsRequest (c : HttpConnectionEx) : Bool :=
  c.acceptsData && c.frame.hasFlag frameFlagEndStream && c.paddedLength ≤ c.frame.length &&
    (c.streams.find? c.frame.ident).any c.completesRequest

def respondedBefore (c : HttpConnectionEx) : Bool :=
  (c.streams.find? c.frame.ident).any fun s => s.doResponse

/-- The DATA that was accepted on the streams in `p`. -/
def accepted (p : ℕ → Bool) : List Obs → ℕ
  | [] => 0
  | .accepted id length :: t => (if p id then length else 0) + accepted p t
  | _ :: t => accepted p t

/-- `applySetting` answers the setting with an error. -/
def refusesSetting (c : HttpConnectionEx) (setting : ℕ × ℕ) : Bool :=
  setting.1 = settingsMaxFrameSize && (16777215 < setting.2 || setting.2 < 16384) ||
    setting.1 = settingsEnablePush && 1 < setting.2 ||
    setting.1 = settingsInitialWindowSize && (c.acceptStreamCount ≠ 0 || 2147483647 < setting.2)

/-- The settings of the frame that are applied: none of a frame that is refused, else
those in front of the first that is refused. -/
def appliedSettings (c : HttpConnectionEx) : List (ℕ × ℕ) :=
  if c.interrupts || c.frame.type ≠ frameTypeSettings || c.frame.ident ≠ 0 ||
      c.frame.hasFlag settingsFlagsAck || c.frame.length % 6 ≠ 0 then []
  else (settingsOf c.payload).takeWhile fun setting => !c.refusesSetting setting

def isHeaders (f : Http2FrameInfo) : Bool :=
  f.type = frameTypeHeaders || f.type = frameTypeContinuation

/-- The windows and the phase of the stream are the same. -/
structure SamePhase (s s' : HttpStream) : Prop where
  doResponse : s'.doResponse = s.doResponse
  endHeaders : s'.endHeaders = s.endHeaders
  windowSize : s'.windowSize = s.windowSize
  endpointWindowSize : s'.endpointWindowSize = s.endpointWindowSize

/-- The frame completes the request of a stream that has been answered already: DATA
that ends the stream, or a header block of a stream that has ended. -/
def asksAgain (c : HttpConnectionEx) : Bool :=
  (c.streams.find? c.frame.ident).any fun s => s.doResponse &&
    (c.endsRequest ||
      isHeaders c.frame && c.frame.hasFlag frameFlagEndHeaders && c.frame.ident ∉ c.closedStreams &&
        !s.endHeaders && (s.endStream || c.frame.hasFlag frameFlagEndStream))

/-- The stream of the frame has not been answered, unless it had been when the frame
arrived. -/
def Unanswered (c₀ c : HttpConnectionEx) : Prop :=
  c₀.respondedBefore = false → c₀.frame.ident ∉ c.closedStreams ∧
    ∃ s, c.streams.find? c₀.frame.ident = some s ∧ s.doResponse = false

/-- `HPackUtil::decode` of the header block returns `code` and leaves `table`. -/
def Decodes (env : Env) (c : HttpConnectionEx) (buffer : Bytes) (code : ℕ)
    (table : DynamicTable) : Prop :=
  ∃ header d, HPackUtil.decode env.indet buffer buffer.length c.reqDynamicTable header false true
    c.headerTableSize = .ok (code, d) ∧ table = d.table

/-- The stream has the answer of the service, and `HPackUtil::encode` of its header
leaves `table`. -/
def Answers (env : Env) (c : HttpConnectionEx) (table : DynamicTable) (s : HttpStream) : Prop :=
  ∃ h block, s.toHandleable = { env.handleRequest h with
      response := convert2Http2 (env.handleRequest h).response } ∧
    HPackUtil.encode env.formatExpires c.respDynamicTable {} s.response.header = .ok (block, table) ∧
    block <:+ s.tempBuffer

/-- A WINDOW_UPDATE frame of the right length, whose increment is not 0. -/
structure Credits (c : HttpConnectionEx) (i : ℕ) : Prop where
  type : c.frame.type = frameTypeWindowUpdate
  length : c.frame.length = 4
  increment : i = fromBigEndian (c.slice 0 4)
  ne_zero : i ≠ 0

/-- The changes of which the handling of a frame consists. -/
inductive Action (env : Env) (c₀ : HttpConnectionEx) :
    HttpConnectionEx → HttpConnectionEx → Prop
  | write {c c' : HttpConnectionEx} (h : c.handleWrite = .ok c') : Action env c₀ c c'
  | control {c : HttpConnectionEx} (f : Http2Frame) (hdata : f.type ≠ frameTypeData)
      (hupdate : f.type ≠ frameTypeWindowUpdate) (hheaders : isHeaders f.toHttp2FrameInfo = false) :
      Action env c₀ c (c.push f)
  | goaway {c : HttpConnectionEx} (code : ℕ)
      (h : c₀.frame.type = frameTypeData → code ≠ goawayFlowControlError) :
      Action env c₀ c (c.observe (.goaway c₀.frame code))
  | exceeded {c : HttpConnectionEx} {s₀ : HttpStream} (hcheck : c₀.checksWindows)
      (hfind : c₀.streams.find? c₀.frame.ident = some s₀)
      (h : c₀.windowSize < c₀.frame.length ∨ s₀.windowSize < c₀.frame.length) :
      Action env c₀ c (c.observe (.goaway c₀.frame goawayFlowControlError))
  | once {code : ℕ} {f : Http2Frame} (h : c₀.answersOnce) (hdata : f.type ≠ frameTypeData) :
      Action env c₀ c₀ ((c₀.observe (.goaway c₀.frame code)).writeBlock f)
  | read {c : HttpConnectionEx} (h : c.isRead = false ∨ c₀.queuesOnTheWay) :
      Action env c₀ c c.readFrameHeader
  | opened (h : c₀.opens) : Action env c₀ c₀ (c₀.openStream c₀.frame.ident)
  | latest {c : HttpConnectionEx} (id : ℕ) : Action env c₀ c { c with latestStreamIdent := id }
  | touch {c : HttpConnectionEx} {s : HttpStream} (hfind : c.streams.find? c₀.frame.ident = some s) :
      Action env c₀ c (c.setStream c₀.frame.ident { s with continueType := c₀.frame.type })
  | touchHeld {c : HttpConnectionEx} {s : HttpStream} (hheld : c.held c₀.frame.ident = some s) :
      Action env c₀ c (c.setHeld c₀.frame.ident { s with continueType := c₀.frame.type })
  | fragment {c : HttpConnectionEx} {s s' : HttpStream} {block : Bytes}
      (htype : isHeaders c₀.frame) (hopen : c₀.frame.ident ∉ c.closedStreams)
      (hfind : c.streams.find? c₀.frame.ident = some s) (hend : s.endHeaders = false)
      (hphase : SamePhase s s') (hbuffer : s'.tempBuffer = s.tempBuffer ++ block)
      (hlast : s'.continueType = c₀.frame.type) (hflag : c₀.frame.hasFlag frameFlagEndHeaders = false) :
      Action env c₀ c ((c.observe (.fragment c₀.frame block)).setStream c₀.frame.ident s')
  | undecodable {c : HttpConnectionEx} {s : HttpStream} (s' : HttpStream) (block : Bytes)
      (code : ℕ) (table : DynamicTable)
      (htype : isHeaders c₀.frame) (hopen : c₀.frame.ident ∉ c.closedStreams)
      (hfind : c.streams.find? c₀.frame.ident = some s) (hend : s.endHeaders = false)
      (hphase : SamePhase { s with endHeaders := true } s')
      (hflag : c₀.frame.hasFlag frameFlagEndHeaders)
      (hdecode : Decodes env c (s.tempBuffer ++ block) code table) :
      Action env c₀ c ({ c with
        reqDynamicTable := table
        streams := c.streams.insert c₀.frame.ident s'
        trace := .goaway c₀.frame code ::
          .decoded c₀.frame.ident (s.tempBuffer ++ block) code ::
          .fragment c₀.frame block :: c.trace })
  | unconvertible {c : HttpConnectionEx} {s : HttpStream} (s' : HttpStream) (block : Bytes)
      (table : DynamicTable)
      (htype : isHeaders c₀.frame) (hopen : c₀.frame.ident ∉ c.closedStreams)
      (hfind : c.streams.find? c₀.frame.ident = some s) (hend : s.endHeaders = false)
      (hphase : SamePhase { s with endHeaders := true } s')
      (hflag : c₀.frame.hasFlag frameFlagEndHeaders)
      (hdecode : Decodes env c (s.tempBuffer ++ block) 0 table) :
      Action env c₀ c ({ c with
        reqDynamicTable := table
        streams := c.streams.insert c₀.frame.ident s'
        trace := .goaway c₀.frame goawayProtocolError :: .converted c₀.frame.ident false ::
          .decoded c₀.frame.ident (s.tempBuffer ++ block) 0 ::
          .fragment c₀.frame block :: c.trace })
  | completed {c : HttpConnectionEx} {s : HttpStream} (s' : HttpStream) (block : Bytes)
      (table : DynamicTable)
      (htype : isHeaders c₀.frame) (hopen : c₀.frame.ident ∉ c.closedStreams)
      (hfind : c.streams.find? c₀.frame.ident = some s) (hend : s.endHeaders = false)
      (hphase : SamePhase { s with endHeaders := true } s')
      (hflag : c₀.frame.hasFlag frameFlagEndHeaders)
      (hdecode : Decodes env c (s.tempBuffer ++ block) 0 table) :
      Action env c₀ c ({ c with
        reqDynamicTable := table
        streams := c.streams.insert c₀.frame.ident s'
        trace := .converted c₀.frame.ident true ::
          .decoded c₀.frame.ident (s.tempBuffer ++ block) 0 ::
          .fragment c₀.frame block :: c.trace })
  | answered {c : HttpConnectionEx} {s : HttpStream} (s' : HttpStream) (block : Bytes)
      (table table' : DynamicTable)
      (htype : isHeaders c₀.frame) (hopen : c₀.frame.ident ∉ c.closedStreams)
      (hfind : c.streams.find? c₀.frame.ident = some s) (hend : s.endHeaders = false)
      (hphase : SamePhase { s with endHeaders := true, doResponse := true } s')
      (hflag : c₀.frame.hasFlag frameFlagEndHeaders)
      (hfresh : c₀.asksAgain = false → s.doResponse = false)
      (hdecode : Decodes env c (s.tempBuffer ++ block) 0 table)
      (hanswers : Answers env c table' s') :
      Action env c₀ c ({ c with
        reqDynamicTable := table
        respDynamicTable := table'
        streams := c.streams.insert c₀.frame.ident s'
        trace := .request c₀.frame.ident :: .converted c₀.frame.ident true ::
          .decoded c₀.frame.ident (s.tempBuffer ++ block) 0 ::
          .fragment c₀.frame block :: c.trace })
  | accept {c : HttpConnectionEx} {s : HttpStream} (htype : c₀.frame.type = frameTypeData)
      (hfirst : ∀ p, accepted p c.trace = accepted p c₀.trace)
      (hheld : c.held c₀.frame.ident = some s)
      (hconn : c₀.frame.length ≤ c.windowSize) (hstream : c₀.frame.length ≤ s.windowSize) :
      Action env c₀ c (c.acceptData c₀.frame s)
  | replenish {c c' : HttpConnectionEx}
      (h : (c.push (windowUpdateFrame 0 localInitWindowSize)).handleWrite = .ok c') :
      Action env c₀ c { c' with windowSize := c'.windowSize + localInitWindowSize }
  | replenishStream {c c' : HttpConnectionEx} {s : HttpStream}
      (h : (c.push (windowUpdateFrame c₀.frame.ident localInitWindowSize)).handleWrite = .ok c')
      (hheld : c'.held c₀.frame.ident = some s) (hident : c₀.frame.ident ≠ 0) :
      Action env c₀ c (c'.setHeld c₀.frame.ident
        { s with windowSize := s.windowSize + localInitWindowSize })
  | body {c : HttpConnectionEx} {s : HttpStream} {request : Request}
      (hheld : c.held c₀.frame.ident = some s) :
      Action env c₀ c (c.setHeld c₀.frame.ident { s with request := request })
  | respond {c : HttpConnectionEx} {s s' : HttpStream} {table : DynamicTable}
      (hends : c₀.endsRequest) (hheld : c.held c₀.frame.ident = some s)
      (hphase : SamePhase { s with doResponse := true } s')
      (hend : ∃ s₀, c₀.streams.find? c₀.frame.ident = some s₀ ∧ s.endHeaders = s₀.endHeaders)
      (hfresh : c₀.asksAgain = false → c₀.frame.ident ∉ c.closedStreams ∧
        ∃ s, c.streams.find? c₀.frame.ident = some s ∧ s.doResponse = false)
      (hanswers : Answers env c table s') :
      Action env c₀ c ({ c with
        respDynamicTable := table
        trace := .request c₀.frame.ident :: c.trace }.setHeld c₀.frame.ident s')
  | credit {c : HttpConnectionEx} (i : ℕ) (hframe : c₀.Credits i) (hident : c₀.frame.ident = 0)
      (hcheck : isAdditionOverflow (toInt32 c.endpointInitWindowSize) (toInt32 i) = false)
      (hfirst : c = c₀) :
      Action env c₀ c ({ c with endpointWindowSize := (c.endpointWindowSize + i) % 2 ^ 32 }.observe
        (.credit 0 i))
  | creditStream {c : HttpConnectionEx} {s : HttpStream} (i : ℕ) (hident : c₀.frame.ident ≠ 0)
      (hfind : c.streams.find? c₀.frame.ident = some s) (hframe : c₀.Credits i)
      (hcheck : isAdditionOverflow (toInt32 s.endpointWindowSize) (toInt32 i) = false)
      (hfirst : c = c₀) :
      Action env c₀ c ((c.setStream c₀.frame.ident { s with
        continueType := c₀.frame.type
        endpointWindowSize := (s.endpointWindowSize + i) % 2 ^ 32 }).observe
          (.credit c₀.frame.ident i))
  | setting {c c' : HttpConnectionEx} {ident value code : ℕ}
      (htype : c₀.frame.type = frameTypeSettings) (hmem : (ident, value) ∈ c₀.appliedSettings)
      (h : c.applySetting ident value = .ok (code, c')) : Action env c₀ c c'
  | acked {c : HttpConnectionEx} : Action env c₀ c { c with expectAck := false }
  | reset {c : HttpConnectionEx} {s : HttpStream} (data : Bytes)
      (hfind : c.streams.find? c₀.frame.ident = some s)
      (htype : c₀.frame.type = frameTypeRstStream) :
      Action env c₀ c ((c.retire c₀.frame.ident s).store 0 data)

abbrev Actions (env : Env) (c₀ : HttpConnectionEx) := Relation.ReflTransGen (Action env c₀)

variable {env : Env} {c₀ c c' : HttpConnectionEx} {id : ℕ} {s s' : HttpStream}

/-- A property that every action keeps is kept by a sequence of actions. -/
theorem Actions.invariant {P : HttpConnectionEx → Prop}
    (hact : ∀ c c', Action env c₀ c c' → P c → P c') (h : Actions env c₀ c c') (hc : P c) :
    P c' := by
  induction h with
  | refl => exact hc
  | tail _ hlast ih => exact hact _ _ hlast ih

theorem checksWindows_spec (h : c.checksWindows) :
    c.frame.type = frameTypeData ∧ c.frame.ident ≠ 0 ∧ c.frame.ident ∉ c.closedStreams := by
  simp only [checksWindows, Bool.and_eq_true, decide_eq_true_eq] at h
  obtain ⟨⟨⟨⟨⟨-, htype⟩, -⟩, hodd⟩, hopen⟩, -⟩ := h
  exact ⟨htype, by omega, hopen⟩

theorem checksWindows_of_endsRequest (h : c.endsRequest) : c.checksWindows := by
  simp only [endsRequest, acceptsData, Bool.and_eq_true] at h
  exact h.1.1.1.1.1

theorem isData_of_endsRequest (h : c.endsRequest) : c.frame.type = frameTypeData :=
  (checksWindows_spec (checksWindows_of_endsRequest h)).1

theorem find?_eq_none_of_opens (h : c.opens) : c.streams.find? c.frame.ident = none := by
  simp only [opens, OrdMap.contains, Bool.and_eq_true, Bool.not_eq_true',
    Option.isSome_eq_false_iff, Option.isNone_iff_eq_none] at h
  exact h.1.2

theorem pushed_actions {f : Http2Frame} (hdata : f.type ≠ frameTypeData)
    (hupdate : f.type ≠ frameTypeWindowUpdate) (hheaders : isHeaders f.toHttp2FrameInfo = false)
    (h : (c.push f).handleWrite = .ok c') : Actions env c₀ c c' :=
  .tail (.single (.control f hdata hupdate hheaders)) (.write h)

theorem answer_actions {d : HttpConnectionEx} {latest code : ℕ} {msg : Bytes}
    (h : d.writeGoawayFrame latest code msg = .ok c')
    (hact : Action env c₀ c (d.observe (.goaway d.frame code))) : Actions env c₀ c c' :=
  .head hact (pushed_actions (show frameTypeGoaway ≠ frameTypeData by decide)
    (show frameTypeGoaway ≠ frameTypeWindowUpdate by decide) rfl h)

theorem goaway_actions {latest code : ℕ} {msg : Bytes} (hframe : c.frame = c₀.frame)
    (hcode : c₀.frame.type = frameTypeData → code ≠ goawayFlowControlError)
    (h : c.writeGoawayFrame latest code msg = .ok c') : Actions env c₀ c c' :=
  answer_actions h (hframe ▸ .goaway code hcode)

theorem once_actions {latest code : ℕ} {msg : Bytes} (honce : c₀.answersOnce)
    (h : c₀.writeGoawayFrame latest code msg true = .ok c') : Actions env c₀ c₀ c' := by
  cases h
  exact .single (.once honce (show frameTypeGoaway ≠ frameTypeData by decide))

theorem handleWindowUpdate_actions (hread : c₀.isRead = false)
    (htype : c₀.frame.type = frameTypeWindowUpdate) (h : c₀.handleWindowUpdate = .ok c') :
    Actions env c₀ c₀ c' := by
  have hdata : c₀.frame.type ≠ frameTypeData := by rw [htype]; decide
  unfold handleWindowUpdate at h
  dsimp only at h
  split_ifs at h with hlen hzero hident hover
  · exact goaway_actions rfl (absurd · hdata) h
  · exact goaway_actions rfl (absurd · hdata) h
  · exact goaway_actions rfl (absurd · hdata) h
  · cases h
    rw [not_not] at hlen
    have hact : Action env c₀ c₀ _ := .credit _ ⟨htype, hlen, rfl, hzero⟩ hident
      (by simpa using hover) rfl
    rw [hident]
    exact .tail (.single hact) (.read (.inl hread))
  · cases hfind : c₀.streams.find? c₀.frame.ident with
    | none =>
      simp only [hfind] at h
      cases h
      exact .single (.read (.inl hread))
    | some s =>
      simp only [hfind] at h
      split_ifs at h with hover
      · exact .head (.touch hfind) (pushed_actions
          (show frameTypeRstStream ≠ frameTypeData by decide)
          (show frameTypeRstStream ≠ frameTypeWindowUpdate by decide) rfl h)
      · cases h
        rw [not_not] at hlen
        exact .tail (.single (.creditStream _ hident hfind ⟨htype, hlen, rfl, hzero⟩
          (by simpa using hover) rfl)) (.read (.inl hread))

theorem handleGoawayFrame_actions (hread : c₀.isRead = false)
    (htype : c₀.frame.type = frameTypeGoaway) (h : c₀.handleGoawayFrame = .ok c') :
    Actions env c₀ c₀ c' := by
  have hdata : c₀.frame.type ≠ frameTypeData := by rw [htype]; decide
  unfold handleGoawayFrame at h
  dsimp only at h
  by_cases hident : c₀.frame.ident ≠ 0
  · rw [if_pos hident] at h
    exact goaway_actions rfl (absurd · hdata) h
  rw [if_neg hident] at h
  cases hfind : c₀.streams.find? c₀.frame.ident with
  | none =>
    simp only [hfind] at h
    split_ifs at h
    · cases h
      exact .refl
    · cases h
      exact .single (.read (.inl hread))
  | some s =>
    simp only [hfind] at h
    split_ifs at h
    · cases h
      exact .single (.touch hfind)
    · cases h
      exact .tail (.single (.touch hfind)) (.read (.inl hread))

theorem handleRstStreamFrame_actions (hread : c₀.isRead = false)
    (htype : c₀.frame.type = frameTypeRstStream) (h : c₀.handleRstStreamFrame env = .ok c') :
    Actions env c₀ c₀ c' := by
  have hdata : c₀.frame.type ≠ frameTypeData := by rw [htype]; decide
  unfold handleRstStreamFrame at h
  dsimp only at h
  split_ifs at h
  · exact goaway_actions rfl (absurd · hdata) h
  · exact goaway_actions rfl (absurd · hdata) h
  · cases h
    exact .single (.read (.inl hread))
  · cases hfind : c₀.streams.find? c₀.frame.ident with
    | none =>
      simp only [hfind] at h
      exact goaway_actions rfl (absurd · hdata) h
    | some s =>
      simp only [hfind] at h
      cases h
      exact .tail (.single (.reset _ hfind htype)) (.read (.inl hread))

theorem handlePingFrame_actions (hint : c₀.interrupts = false)
    (htype : c₀.frame.type = frameTypePing)
    (h : c₀.handlePingFrame = .ok c') : Actions env c₀ c₀ c' := by
  have hdata : c₀.frame.type ≠ frameTypeData := by rw [htype]; decide
  unfold handlePingFrame at h
  split_ifs at h with hident
  · exact once_actions (by simp [answersOnce, hint, htype, hident]) h
  · exact goaway_actions rfl (absurd · hdata) h
  · exact goaway_actions rfl (absurd · hdata) h
  · exact pushed_actions (show frameTypePing ≠ frameTypeData by decide)
      (show frameTypePing ≠ frameTypeWindowUpdate by decide) rfl h

theorem notePriority_actions (hframe : c.frame = c₀.frame) (hread : c.isRead = false)
    (hdata : c₀.frame.type ≠ frameTypeData) (hfind : c.streams.find? c₀.frame.ident = some s)
    (h : c.notePriority s = .ok c') : Actions env c₀ c c' := by
  unfold notePriority at h
  rw [hframe] at h
  refine .head (.touch hfind) ?_
  dsimp only at h
  split_ifs at h
  · exact goaway_actions hframe (absurd · hdata) h
  · cases h
    exact .single (.read (.inl hread))

theorem find?_openStream (c : HttpConnectionEx) (id : ℕ) :
    (c.openStream id).streams.find? id = some { endpointWindowSize := c.endpointInitWindowSize } :=
  OrdMap.find?_insert_self _ _ _

theorem handlePriorityFrame_actions (hread : c₀.isRead = false)
    (htype : c₀.frame.type = frameTypePriority) (h : c₀.handlePriorityFrame = .ok c') :
    Actions env c₀ c₀ c' := by
  have hdata : c₀.frame.type ≠ frameTypeData := by rw [htype]; decide
  unfold handlePriorityFrame at h
  dsimp only at h
  split_ifs at h with hident hlen
  · exact goaway_actions rfl (absurd · hdata) h
  · exact goaway_actions rfl (absurd · hdata) h
  · cases hfind : c₀.streams.find? c₀.frame.ident with
    | none =>
      have hopens : c₀.opens = true := by
        simp only [not_or, ne_eq, not_not] at hident hlen
        simp [opens, hident, hlen, htype, OrdMap.contains, hfind]
      simp only [hfind] at h
      exact .head (.opened hopens) (notePriority_actions rfl hread hdata (find?_openStream _ _) h)
    | some s =>
      simp only [hfind] at h
      exact notePriority_actions rfl hread hdata hfind h

/-- The outcomes of one setting: the parameters that are set, and the values that are
not allowed. -/
inductive SettingOutcome (c : HttpConnectionEx) (ident value : ℕ) : ℕ → HttpConnectionEx → Prop
  | headerTableSize {table : DynamicTable} (hident : ident = settingsHeaderTableSize)
      (hreq : c.reqDynamicTable.resize value = .ok table) :
      SettingOutcome c ident value 0
        { c with reqDynamicTable := table, headerTableSize := value }
  | maxConcurrentStreams (hident : ident = settingsMaxConcurrentStreams) :
      SettingOutcome c ident value 0
        { c with maxConcurrentStream := if value = 0 then 100 else value }
  | maxFrameSize (hident : ident = settingsMaxFrameSize) (hlow : 16384 ≤ value)
      (hhigh : value ≤ 16777215) :
      SettingOutcome c ident value 0
        { c with endpointMaxFrameSize := value, maxFrameSize := min value localMaxFrameSize }
  | frameSizeRefused (hident : ident = settingsMaxFrameSize)
      (hvalue : value > 16777215 ∨ value < 16384) :
      SettingOutcome c ident value goawayProtocolError c
  | enablePush (hident : ident = settingsEnablePush) (hvalue : value ≤ 1) :
      SettingOutcome c ident value 0 { c with enablePush := value }
  | pushRefused (hident : ident = settingsEnablePush) (hvalue : 1 < value) :
      SettingOutcome c ident value goawayProtocolError c
  | maxHeaderListSize {reqTable respTable : DynamicTable}
      (hident : ident = settingsMaxHeaderListSize)
      (hreq : c.reqDynamicTable.resize value = .ok reqTable)
      (hresp : c.respDynamicTable.resize value = .ok respTable) :
      SettingOutcome c ident value 0 { c with
        maxHeaderListSize := value
        reqDynamicTable := reqTable
        respDynamicTable := respTable }
  | initialWindowSize (hident : ident = settingsInitialWindowSize)
      (hnone : c.acceptStreamCount = 0) (hvalue : value ≤ 2147483647) :
      SettingOutcome c ident value 0 { c with endpointInitWindowSize := value }
  | windowRefused (hident : ident = settingsInitialWindowSize)
      (hvalue : c.acceptStreamCount ≠ 0 ∨ value > 2147483647) :
      SettingOutcome c ident value goawayFlowControlError c
  | unknown (hident : ident ∉ [settingsHeaderTableSize, settingsMaxConcurrentStreams,
        settingsMaxFrameSize, settingsEnablePush, settingsMaxHeaderListSize,
        settingsInitialWindowSize]) :
      SettingOutcome c ident value 0 c

theorem applySetting_outcome {ident value code : ℕ}
    (h : c.applySetting ident value = .ok (code, c')) : SettingOutcome c ident value code c' := by
  unfold applySetting at h
  by_cases htable : ident = settingsHeaderTableSize
  · rw [if_pos htable] at h
    obtain ⟨table, hreq, h⟩ := bind_eq_ok.mp h
    cases h
    exact .headerTableSize htable hreq
  rw [if_neg htable] at h
  by_cases hstreams : ident = settingsMaxConcurrentStreams
  · rw [if_pos hstreams] at h
    cases h
    exact .maxConcurrentStreams hstreams
  rw [if_neg hstreams] at h
  by_cases hframe : ident = settingsMaxFrameSize
  · rw [if_pos hframe] at h
    by_cases hvalue : value > 16777215 ∨ value < 16384
    · rw [if_pos hvalue] at h
      cases h
      exact .frameSizeRefused hframe hvalue
    · rw [if_neg hvalue] at h
      cases h
      exact .maxFrameSize hframe (by omega) (by omega)
  rw [if_neg hframe] at h
  by_cases hpush : ident = settingsEnablePush
  · rw [if_pos hpush] at h
    by_cases hvalue : value ≤ 1
    · rw [if_pos hvalue] at h
      cases h
      exact .enablePush hpush hvalue
    · rw [if_neg hvalue] at h
      cases h
      exact .pushRefused hpush (not_le.mp hvalue)
  rw [if_neg hpush] at h
  by_cases hlist : ident = settingsMaxHeaderListSize
  · rw [if_pos hlist] at h
    obtain ⟨reqTable, hreq, h⟩ := bind_eq_ok.mp h
    obtain ⟨respTable, hresp, h⟩ := bind_eq_ok.mp h
    cases h
    exact .maxHeaderListSize hlist hreq hresp
  rw [if_neg hlist] at h
  by_cases hwindow : ident = settingsInitialWindowSize
  · rw [if_pos hwindow] at h
    by_cases hcount : c.acceptStreamCount ≠ 0
    · rw [if_pos hcount] at h
      cases h
      exact .windowRefused hwindow (.inl hcount)
    rw [if_neg hcount] at h
    by_cases hvalue : value > 2147483647
    · rw [if_pos hvalue] at h
      cases h
      exact .windowRefused hwindow (.inr hvalue)
    · rw [if_neg hvalue] at h
      cases h
      exact .initialWindowSize hwindow (not_not.mp hcount) (not_lt.mp hvalue)
  rw [if_neg hwindow] at h
  cases h
  exact .unknown (by simp [htable, hstreams, hframe, hpush, hlist, hwindow])

theorem applySetting_eq {ident value code : ℕ} (h : c.applySetting ident value = .ok (code, c')) :
    ∃ reqTable respTable tableSize push streams window maxFrame frame list,
      c' = { c with
        reqDynamicTable := reqTable
        respDynamicTable := respTable
        headerTableSize := tableSize
        enablePush := push
        maxConcurrentStream := streams
        endpointInitWindowSize := window
        endpointMaxFrameSize := maxFrame
        maxFrameSize := frame
        maxHeaderListSize := list } ∧
      (maxFrame = c.endpointMaxFrameSize ∨
        ident = settingsMaxFrameSize ∧ maxFrame = value ∧ 16384 ≤ value ∧ value ≤ 16777215) := by
  cases applySetting_outcome h with
  | maxFrameSize hident hlow hhigh =>
    exact ⟨_, _, _, _, _, _, _, _, _, rfl, .inr ⟨hident, rfl, hlow, hhigh⟩⟩
  | headerTableSize | maxConcurrentStreams | frameSizeRefused | enablePush | pushRefused
  | maxHeaderListSize | initialWindowSize | windowRefused | unknown =>
    exact ⟨_, _, _, _, _, _, _, _, _, rfl, .inl rfl⟩

theorem applySetting_refused {ident value code : ℕ} (hrefused : c.refusesSetting (ident, value))
    (h : c.applySetting ident value = .ok (code, c')) : code ≠ 0 ∧ c' = c := by
  cases applySetting_outcome h with
  | frameSizeRefused => exact ⟨by decide, rfl⟩
  | pushRefused => exact ⟨by decide, rfl⟩
  | windowRefused => exact ⟨by decide, rfl⟩
  | maxFrameSize hident hlow hhigh =>
    simp [refusesSetting, hident, settingsMaxFrameSize, settingsEnablePush,
      settingsInitialWindowSize] at hrefused
    omega
  | enablePush hident hvalue =>
    simp [refusesSetting, hident, settingsMaxFrameSize, settingsEnablePush,
      settingsInitialWindowSize] at hrefused
    omega
  | initialWindowSize hident hnone hvalue =>
    simp [refusesSetting, hident, settingsMaxFrameSize, settingsEnablePush,
      settingsInitialWindowSize, hnone] at hrefused
    omega
  | headerTableSize hident | maxConcurrentStreams hident | maxHeaderListSize hident =>
    simp [refusesSetting, hident, settingsMaxFrameSize, settingsEnablePush,
      settingsInitialWindowSize, settingsHeaderTableSize, settingsMaxConcurrentStreams,
      settingsMaxHeaderListSize] at hrefused
  | unknown hident =>
    simp only [List.mem_cons, List.not_mem_nil, or_false, not_or] at hident
    simp [refusesSetting, hident] at hrefused

theorem applySettings_actions (htype : c₀.frame.type = frameTypeSettings) {l : List (ℕ × ℕ)}
    (hcount : c.acceptStreamCount = c₀.acceptStreamCount)
    (hl : ∀ e ∈ l.takeWhile fun e => !c₀.refusesSetting e, e ∈ c₀.appliedSettings) {code : ℕ}
    (h : c.applySettings l = .ok (code, c')) : Actions env c₀ c c' := by
  induction l generalizing c with
  | nil =>
    cases h
    exact .refl
  | cons e l ih =>
    obtain ⟨ident, value⟩ := e
    obtain ⟨⟨k, d⟩, hone, h⟩ := bind_eq_ok.mp h
    dsimp only at h
    by_cases hrefused : c₀.refusesSetting (ident, value)
    · have hrefused' : c.refusesSetting (ident, value) := by
        simpa only [refusesSetting, hcount] using hrefused
      obtain ⟨hcode, hsame⟩ := applySetting_refused hrefused' hone
      rw [if_pos hcode] at h
      cases h
      rw [hsame]
    · rw [List.takeWhile_cons_of_pos (by simpa using hrefused)] at hl
      have hact : Action env c₀ c d := .setting htype (hl _ List.mem_cons_self) hone
      have hcount' : d.acceptStreamCount = c₀.acceptStreamCount := by
        obtain ⟨_, _, _, _, _, _, _, _, _, rfl, -⟩ := applySetting_eq hone
        exact hcount
      split_ifs at h
      · cases h
        exact .single hact
      · exact .head hact (ih hcount' (fun e he => hl e (List.mem_cons_of_mem _ he)) h)

theorem handleSettingsFrame_actions (hint : c₀.interrupts = false)
    (htype : c₀.frame.type = frameTypeSettings) {code : ℕ}
    (h : c₀.handleSettingsFrame = .ok (code, c')) : Actions env c₀ c₀ c' := by
  unfold handleSettingsFrame at h
  split_ifs at h with hident hack hempty hlength
  · cases h
    exact .refl
  · cases h
    exact .refl
  · cases h
    exact .single .acked
  · cases h
    exact .refl
  · refine applySettings_actions htype rfl (fun e he => ?_) h
    have happlied : c₀.appliedSettings =
        (settingsOf c₀.payload).takeWhile fun e => !c₀.refusesSetting e := by
      rw [not_not] at hident hlength
      simp [appliedSettings, hint, htype, hident, hack, hlength]
    rw [happlied]
    exact he

/-- What survives every setting survives the loop over them. -/
theorem applySettings_invariant {P : HttpConnectionEx → Prop}
    (hone : ∀ c ident value code c', c.applySetting ident value = .ok (code, c') → P c → P c')
    {l : List (ℕ × ℕ)} {code : ℕ} (h : c.applySettings l = .ok (code, c')) (hc : P c) : P c' := by
  induction l generalizing c with
  | nil =>
    cases h
    exact hc
  | cons e l ih =>
    obtain ⟨⟨k, d⟩, hd, h⟩ := bind_eq_ok.mp h
    have hnext := hone _ _ _ _ _ hd hc
    dsimp only at h
    split_ifs at h
    · cases h
      exact hnext
    · exact ih h hnext

theorem handleSettingsFrame_invariant {P : HttpConnectionEx → Prop}
    (hone : ∀ c ident value code c', c.applySetting ident value = .ok (code, c') → P c → P c')
    (hack : ∀ c : HttpConnectionEx, P c → P { c with expectAck := false })
    {code : ℕ} (h : c.handleSettingsFrame = .ok (code, c')) (hc : P c) : P c' := by
  unfold handleSettingsFrame at h
  split_ifs at h
  · cases h
    exact hc
  · cases h
    exact hc
  · cases h
    exact hack c hc
  · cases h
    exact hc
  · exact applySettings_invariant hone h hc

theorem handleSettingsFrame_same {α : Type} {f : HttpConnectionEx → α}
    (hone : ∀ c ident value code c', c.applySetting ident value = .ok (code, c') → f c' = f c)
    (hack : ∀ c : HttpConnectionEx, f { c with expectAck := false } = f c)
    {code : ℕ} (h : c.handleSettingsFrame = .ok (code, c')) : f c' = f c := by
  refine handleSettingsFrame_invariant (P := fun d => f d = f c) ?_ ?_ h rfl
  · intro d ident value code d' hd hsame
    exact (hone d ident value code d' hd).trans hsame
  · intro d hsame
    exact (hack d).trans hsame

theorem handleSettingsFrame_isRead {code : ℕ} (h : c.handleSettingsFrame = .ok (code, c')) :
    c'.isRead = c.isRead := by
  refine handleSettingsFrame_same (f := isRead) ?_ (fun _ => rfl) h
  intro c ident value code c' hone
  obtain ⟨_, _, _, _, _, _, _, _, _, rfl, -⟩ := applySetting_eq hone
  rfl

theorem respond_spec {d : HttpConnectionEx} (h : c.respond env id s = .ok (d, s')) :
    SamePhase { s with doResponse := true } s' ∧
      ∃ table, d = { c with respDynamicTable := table, trace := .request id :: c.trace } ∧
        Answers env c table s' := by
  unfold respond at h
  obtain ⟨⟨block, table⟩, hencode, h⟩ := bind_eq_ok.mp h
  cases h
  exact ⟨⟨rfl, rfl, rfl, rfl⟩, table, rfl, _, block, rfl, hencode, List.suffix_append _ _⟩

section Headers

variable (hframe : c.frame = c₀.frame) (hread : c.isRead = false) (htype : isHeaders c₀.frame)
  (hopen : c₀.frame.ident ∉ c.closedStreams) (hfind : c.streams.find? c₀.frame.ident = some s)
  (hend : s.endHeaders = false)
  (hold : s.doResponse = true → c₀.streams.find? c₀.frame.ident = some s ∧
    c₀.frame.ident ∉ c₀.closedStreams)

include hframe hread htype hopen hfind hend hold

theorem headersEnd_actions {s₁ : HttpStream} {block : Bytes}
    (hbuffer : s₁.tempBuffer = s.tempBuffer ++ block)
    (hphase : SamePhase { s with endHeaders := true } s₁)
    (hflag : c₀.frame.hasFlag frameFlagEndHeaders)
    (hended : s₁.endStream = (s.endStream || c₀.frame.hasFlag frameFlagEndStream))
    (h : (c.observe (.fragment c.frame block)).headersEnd env s₁ = .ok c') :
    Actions env c₀ c c' := by
  unfold headersEnd at h
  obtain ⟨⟨code, d⟩, hdecode, h⟩ := bind_eq_ok.mp h
  have hdecodes : Decodes env c (s.tempBuffer ++ block) code d.table := by
    rw [← hbuffer]
    exact ⟨_, d, hdecode, rfl⟩
  dsimp only at h
  generalize convertFromHttp2 _ = r at h
  split_ifs at h with hcode hconv hstream
  · have hact : Action env c₀ c _ := .undecodable { s₁ with
        tempBuffer := [], request := { s₁.request with header := d.header } }
      block code d.table htype hopen hfind hend
      ⟨hphase.1, hphase.2, hphase.3, hphase.4⟩ hflag hdecodes
    rw [← hframe, ← hbuffer] at hact
    refine answer_actions h ?_
    simp only [observe, setStream]
    exact hact
  · have hzero : code = 0 := not_not.mp hcode
    have hact : Action env c₀ c _ := .unconvertible { s₁ with
        tempBuffer := [], request := r.1 }
      block d.table htype hopen hfind hend ⟨hphase.1, hphase.2, hphase.3, hphase.4⟩ hflag
      (hzero ▸ hdecodes)
    rw [← hframe, ← hbuffer] at hact
    have hfalse : r.2 = false := by simpa using hconv
    rw [hfalse, hzero] at h
    refine answer_actions h ?_
    simp only [observe, setStream]
    exact hact
  · obtain ⟨⟨e, s₂⟩, hrespond, h⟩ := bind_eq_ok.mp h
    obtain ⟨hphase₂, table, rfl, hanswers⟩ := respond_spec hrespond
    simp only [Bool.not_eq_true', Bool.not_eq_false] at hconv
    have hzero : code = 0 := not_not.mp hcode
    have hfresh : c₀.asksAgain = false → s.doResponse = false := by
      intro hagain
      by_contra hresp
      obtain ⟨hfind₀, hopen₀⟩ := hold (by simpa using hresp)
      have hstream : (s.endStream || c₀.frame.hasFlag frameFlagEndStream) = true := by
        rw [← hended]
        exact hstream
      simp_all [asksAgain]
    have hact : Action env c₀ c _ := .answered s₂ block d.table table htype hopen hfind hend
      ⟨hphase₂.1, hphase₂.2.trans hphase.2, hphase₂.3.trans hphase.3,
        hphase₂.4.trans hphase.4⟩ hflag hfresh (hzero ▸ hdecodes) hanswers
    rw [← hframe, ← hbuffer] at hact
    rw [hconv, hzero] at h
    refine .tail (.single ?_) (.write h)
    simp only [observe, setStream]
    exact hact
  · simp only [Bool.not_eq_true', Bool.not_eq_false] at hconv
    have hzero : code = 0 := not_not.mp hcode
    have hact : Action env c₀ c _ := .completed { s₁ with
        tempBuffer := []
        toHandleable := env.handleFilter { s₁.toHandleable with request := r.1 } }
      block d.table htype hopen hfind hend ⟨hphase.1, hphase.2, hphase.3, hphase.4⟩ hflag
      (hzero ▸ hdecodes)
    rw [← hframe, ← hbuffer] at hact
    rw [hconv, hzero] at h
    cases h
    refine .tail (.single ?_) (.read (.inl hread))
    simp only [observe, setStream]
    exact hact

theorem headersFragment_actions (h : c.headersFragment env s = .ok c') : Actions env c₀ c c' := by
  have hdata : c₀.frame.type ≠ frameTypeData := by
    intro hd
    simp [isHeaders, hd, frameTypeData, frameTypeHeaders, frameTypeContinuation] at htype
  have htouch : Action env c₀ c
      (c.setStream c.frame.ident { s with continueType := c.frame.type }) :=
    hframe ▸ .touch hfind
  unfold headersFragment at h
  dsimp only at h
  split_ifs at h with hself hpad hwrap hdone
  · exact .head htouch (goaway_actions hframe (absurd · hdata) h)
  · exact .head htouch (goaway_actions hframe (absurd · hdata) h)
  · have hflag : c₀.frame.hasFlag frameFlagEndHeaders := by
      rw [← hframe]
      simpa [hend] using hdone
    refine headersEnd_actions hframe hread htype hopen hfind hend hold ?_ ?_ hflag ?_ h
    · rfl
    · exact ⟨rfl, hdone, rfl, rfl⟩
    · rw [← hframe]
  · cases h
    have hflag : c₀.frame.hasFlag frameFlagEndHeaders = false := by
      rw [← hframe]
      simpa [hend] using hdone
    have hphase : SamePhase s { s with
        continueType := c.frame.type
        tempBuffer := s.tempBuffer ++ c.slice (fragmentOffset c.frame)
          (c.frame.length - c.paddedLength - fragmentOffset c.frame)
        endHeaders := s.endHeaders || c.frame.hasFlag frameFlagEndHeaders
        endStream := s.endStream || c.frame.hasFlag frameFlagEndStream } :=
      ⟨rfl, by simpa [hend] using hdone, rfl, rfl⟩
    have hlast : c.frame.type = c₀.frame.type := by rw [hframe]
    have hact : Action env c₀ c _ := .fragment htype hopen hfind hend hphase rfl hlast hflag
    rw [← hframe] at hact
    exact .tail (.single hact) (.read (.inl hread))

end Headers

theorem handleHeadersFrame_actions (hread : c₀.isRead = false) (htype : isHeaders c₀.frame)
    (hcont : c₀.frame.type ≠ frameTypeHeaders → c₀.continues)
    (h : c₀.handleHeadersFrame env = .ok c') : Actions env c₀ c₀ c' := by
  have hdata : c₀.frame.type ≠ frameTypeData := by
    intro hd
    simp [isHeaders, hd, frameTypeData, frameTypeHeaders, frameTypeContinuation] at htype
  unfold handleHeadersFrame at h
  dsimp only at h
  by_cases hident : c₀.frame.ident = 0 ∨ c₀.frame.ident % 2 ≠ 1
  · rw [if_pos hident] at h
    exact goaway_actions rfl (absurd · hdata) h
  by_cases hclosed : c₀.frame.ident ∈ c₀.closedStreams
  · rw [if_neg hident, if_pos hclosed] at h
    exact goaway_actions rfl (absurd · hdata) h
  rw [if_neg hident, if_neg hclosed] at h
  simp only [not_or, ne_eq, not_not] at hident
  cases hfind : c₀.streams.find? c₀.frame.ident with
  | none =>
    simp only [hfind] at h
    split_ifs at h with hheaders hold hmany
    · exact goaway_actions rfl (absurd · hdata) h
    · refine once_actions ?_ h
      simp [answersOnce, interrupts, hheaders, hident, hclosed, OrdMap.contains, hfind, hold, hmany]
    · have hopens : c₀.opens = true := by
        simp [opens, hident, hheaders, hclosed, OrdMap.contains, hfind, Nat.not_lt.mp hold,
          Nat.not_lt.mp hmany]
      refine .head (.opened hopens) (.head (.latest c₀.frame.ident) ?_)
      refine headersFragment_actions ?_ hread htype hclosed (find?_openStream _ _) rfl ?_ h
      · rfl
      · intro hresp
        cases hresp
    · exact goaway_actions rfl (absurd · hdata) h
  | some s =>
    simp only [hfind] at h
    split_ifs at h with hheaders hdone
    · exact goaway_actions rfl (absurd · hdata) h
    · exact headersFragment_actions rfl hread htype hclosed hfind (by simpa using hdone)
        (fun _ => ⟨hfind, hclosed⟩) h
    · have hopen : s.endHeaders = false := by
        have := hcont hheaders
        simp only [continues, hfind, Option.any_some, Bool.and_eq_true, Bool.not_eq_true'] at this
        exact this.2
      exact headersFragment_actions rfl hread htype hclosed hfind hopen
        (fun _ => ⟨hfind, hclosed⟩) h

theorem Unanswered.kept (hu : Unanswered c₀ c) (hk : Kept c c') : Unanswered c₀ c' := by
  intro hbefore
  obtain ⟨hopen, s, hfind, hidle⟩ := hu hbefore
  obtain ⟨hfind', hopen'⟩ := hk.idle _ s hfind hidle hopen
  exact ⟨hopen', s, hfind', hidle⟩

theorem setHeld_of_find? (h : c.streams.find? id = some s) : c.setHeld id s' = c.setStream id s' := by
  simp [setHeld, OrdMap.contains, h]

theorem setHeld_frame : (c.setHeld id s).frame = c.frame := by
  unfold setHeld
  split_ifs <;> rfl

theorem setHeld_tempBuffer : (c.setHeld id s).tempBuffer = c.tempBuffer := by
  unfold setHeld
  split_ifs <;> rfl

theorem setHeld_isRead : (c.setHeld id s).isRead = c.isRead := by
  unfold setHeld
  split_ifs <;> rfl

theorem setHeld_windowSize : (c.setHeld id s).windowSize = c.windowSize := by
  unfold setHeld
  split_ifs <;> rfl

theorem held_setHeld : (c.setHeld id s).held id = some s := by
  unfold setHeld
  by_cases h : c.streams.contains id = true
  · rw [if_pos h]
    exact held_setStream_self
  · have hnone : c.streams.find? id = none := by simpa [OrdMap.contains] using h
    rw [if_neg h]
    simp [held, hnone]

theorem Unanswered.setHeld (hu : Unanswered c₀ c) (hheld : c.held c₀.frame.ident = some s)
    (hresp : s'.doResponse = s.doResponse) : Unanswered c₀ (c.setHeld c₀.frame.ident s') := by
  intro hbefore
  obtain ⟨hopen, t, hfind, hidle⟩ := hu hbefore
  rw [held_of_find? hfind] at hheld
  cases hheld
  rw [setHeld_of_find? hfind]
  exact ⟨hopen, s', OrdMap.find?_insert_self _ _ _, hresp.trans hidle⟩

/-- The stream `s₀` in the course of `handleDataFrame`, when `n` octets have gone to the
body of its request. -/
structure Collected (n : ℕ) (s₀ s : HttpStream) : Prop where
  endHeaders : s.endHeaders = s₀.endHeaders
  connType : s.connType = s₀.connType
  header : s.request.header = s₀.request.header
  body : s.request.body.length = s₀.request.body.length + n

/-- What is known in the course of `handleDataFrame`. -/
structure Following (c₀ : HttpConnectionEx) (n : ℕ) (c : HttpConnectionEx) : Prop where
  frame : c.frame = c₀.frame
  tempBuffer : c.tempBuffer = c₀.tempBuffer
  unanswered : Unanswered c₀ c
  quiet : c.isRead = false ∨ c₀.queuesFrame
  stream : ∃ s₀ s, c₀.streams.find? c₀.frame.ident = some s₀ ∧ c.held c₀.frame.ident = some s ∧
    Collected n s₀ s

theorem withHeld_eq_ok {next : HttpStream → Except Fault HttpConnectionEx}
    (h : c.withHeld id next = .ok c') : ∃ s, c.held id = some s ∧ next s = .ok c' := by
  unfold withHeld at h
  split at h
  · exact ⟨_, by assumption, h⟩
  · cases h

theorem pushed_kept {f : Http2Frame} (h : (c.push f).handleWrite = .ok c') : Kept c c' := by
  have hk := handleWrite_kept h
  obtain ⟨t, ht, hall⟩ := hk.trace
  refine ⟨hk.frame, hk.tempBuffer, hk.windowSize, ⟨t ++ [.put f], ?_, ?_⟩, hk.held, hk.idle⟩
  · rw [ht, List.append_assoc]
    rfl
  · simpa [or_imp, forall_and, isWriting] using hall

theorem accepted_append (p : ℕ → Bool) {t : List Obs} (h : ∀ o ∈ t, isWriting o) (u : List Obs) :
    accepted p (t ++ u) = accepted p u := by
  induction t with
  | nil => rfl
  | cons o t ih =>
    have ho := h o List.mem_cons_self
    have ih := ih fun o ho => h o (List.mem_cons_of_mem _ ho)
    cases o <;> first | exact ih | cases ho

theorem goaway_kept {latest code : ℕ} {msg : Bytes}
    (h : c.writeGoawayFrame latest code msg = .ok c') :
    Kept (c.observe (.goaway c.frame code)) c' :=
  pushed_kept h

theorem Following.kept {n : ℕ} (hf : Following c₀ n c) (hk : Kept c c') (hqueue : c₀.queuesFrame) :
    Following c₀ n c' where
  frame := hk.frame.trans hf.frame
  tempBuffer := hk.tempBuffer.trans hf.tempBuffer
  unanswered := hf.unanswered.kept hk
  quiet := .inr hqueue
  stream := by
    obtain ⟨s₀, s, hfind, hheld, hcollected⟩ := hf.stream
    obtain ⟨s', hheld', hsent⟩ := hk.held _ s hheld
    refine ⟨s₀, s', hfind, hheld', ?_⟩
    constructor
    · exact hsent.endHeaders.trans hcollected.endHeaders
    · exact hsent.connType.trans hcollected.connType
    · rw [hsent.request, hcollected.header]
    · rw [hsent.request, hcollected.body]

theorem Following.setHeld {n m : ℕ} (hf : Following c₀ n c) (hheld : c.held c₀.frame.ident = some s)
    (hresp : s'.doResponse = s.doResponse) (hstep : ∀ s₀, c₀.streams.find? c₀.frame.ident = some s₀ →
      Collected n s₀ s → Collected m s₀ s') : Following c₀ m (c.setHeld c₀.frame.ident s') where
  frame := setHeld_frame.trans hf.frame
  tempBuffer := setHeld_tempBuffer.trans hf.tempBuffer
  unanswered := hf.unanswered.setHeld hheld hresp
  quiet := by
    rw [setHeld_isRead]
    exact hf.quiet
  stream := by
    obtain ⟨s₀, t, hfind, ht, hcollected⟩ := hf.stream
    cases hheld.symm.trans ht
    exact ⟨s₀, s', hfind, held_setHeld, hstep s₀ hfind hcollected⟩

theorem replenish_actions {n : ℕ} (hf : Following c₀ n c) (hheld : c.held c₀.frame.ident = some s)
    (hlow : c.windowSize < localInitWindowSize / 2 → c₀.queuesFrame) (h : c.replenish = .ok c') :
    Actions env c₀ c c' ∧ Following c₀ n c' ∧
      ∃ s', c'.held c₀.frame.ident = some s' ∧ s'.windowSize = s.windowSize := by
  unfold replenish at h
  split_ifs at h with hwindow
  · obtain ⟨d, hwrite, h⟩ := bind_eq_ok.mp h
    cases h
    have hk : Kept c d := pushed_kept hwrite
    obtain ⟨s', hheld', hsent⟩ := hk.held _ s hheld
    have hf' := hf.kept hk (hlow hwindow)
    exact ⟨.single (.replenish hwrite), ⟨hf'.frame, hf'.tempBuffer, hf'.unanswered, hf'.quiet, hf'.stream⟩,
      s', hheld', hsent.windowSize⟩
  · cases h
    exact ⟨.refl, hf, s, hheld, rfl⟩

theorem replenishStream_actions {n : ℕ} (hf : Following c₀ n c) (hident : c₀.frame.ident ≠ 0)
    (hheld : c.held c₀.frame.ident = some s)
    (hlow : s.windowSize < localInitWindowSize / 2 → c₀.queuesFrame)
    (h : c.replenishStream = .ok c') : Actions env c₀ c c' ∧ Following c₀ n c' := by
  unfold replenishStream at h
  dsimp only at h
  rw [hf.frame] at h
  obtain ⟨t, ht, h⟩ := withHeld_eq_ok h
  rw [hheld] at ht
  cases ht
  split_ifs at h with hwindow
  · obtain ⟨d, hwrite, h⟩ := bind_eq_ok.mp h
    obtain ⟨s', hheld', h⟩ := withHeld_eq_ok h
    cases h
    have hf' := hf.kept (pushed_kept hwrite) (hlow hwindow)
    refine ⟨.single (.replenishStream hwrite hheld' hident), hf'.setHeld hheld' rfl ?_⟩
    exact fun _ _ h => ⟨h.endHeaders, h.connType, h.header, h.body⟩
  · cases h
    exact ⟨.refl, hf⟩

theorem Following.paddedLength {n : ℕ} (hf : Following c₀ n c) : c.paddedLength = c₀.paddedLength := by
  simp [HttpConnectionEx.paddedLength, slice, hf.frame, hf.tempBuffer]

/-- What the checks at the end of `handleDataFrame` find is known when the frame arrives. -/
theorem completesRequest_of_collected {s₀ : HttpStream} (hc : Collected (c₀.bodyOctets s₀) s₀ s)
    (hlength : ¬(s.connType ≠ .filter ∧ s.request.header.exist (bytes "content-length") ∧
      toUInt64 (toInteger (s.request.header.get (bytes "content-length") [])) ≠
        s.request.body.length))
    (hfields : ¬(s.request.header.exist (bytes "te") ∨ s.request.header.exist (bytes "trailer"))) :
    c₀.completesRequest s₀ := by
  rw [hc.connType, hc.header, hc.body] at hlength
  rw [hc.header] at hfields
  simp only [completesRequest, Bool.and_eq_true, Bool.or_eq_true, Bool.not_eq_true',
    decide_eq_true_eq, ← Bool.not_eq_true]
  tauto

theorem dataEnd_actions {n : ℕ} (hf : Following c₀ n c) (haccepts : c₀.acceptsData)
    (hpad : c₀.paddedLength ≤ c₀.frame.length)
    (hbody : ∀ s₀, c₀.streams.find? c₀.frame.ident = some s₀ → n = c₀.bodyOctets s₀)
    (h : c.dataEnd env = .ok c') : Actions env c₀ c c' := by
  have hcode : goawayProtocolError ≠ goawayFlowControlError := by decide
  unfold dataEnd at h
  dsimp only at h
  rw [hf.frame] at h
  split_ifs at h with hflag
  · obtain ⟨s, hheld, h⟩ := withHeld_eq_ok h
    split_ifs at h with hlength hfields
    · exact goaway_actions hf.frame (fun _ => hcode) h
    · exact goaway_actions hf.frame (fun _ => hcode) h
    · obtain ⟨⟨d, s₁⟩, hrespond, h⟩ := bind_eq_ok.mp h
      obtain ⟨hphase, table, rfl, hanswers⟩ := respond_spec hrespond
      obtain ⟨s₀, t, hfind, ht, hcollected⟩ := hf.stream
      cases hheld.symm.trans ht
      rw [hbody s₀ hfind] at hcollected
      have hends : c₀.endsRequest := by
        simp [endsRequest, haccepts, hflag, hpad, hfind,
          completesRequest_of_collected hcollected hlength hfields]
      have hfresh : c₀.asksAgain = false → c₀.respondedBefore = false := by
        intro hagain
        simpa [asksAgain, respondedBefore, hfind, hends] using hagain
      exact .tail (.single (.respond hends hheld hphase ⟨s₀, hfind, hcollected.endHeaders⟩
        (fun hagain => hf.unanswered (hfresh hagain)) hanswers)) (.write h)
  · cases h
    refine .single (.read (hf.quiet.imp_right fun hqueue => ?_))
    simp [queuesOnTheWay, haccepts, hflag, hpad, hqueue]

theorem dataBody_actions (hf : Following c₀ 0 c) (haccepts : c₀.acceptsData)
    (h : c.dataBody env = .ok c') : Actions env c₀ c c' := by
  have hcode : goawayProtocolError ≠ goawayFlowControlError := by decide
  unfold dataBody at h
  dsimp only at h
  rw [hf.frame, hf.paddedLength] at h
  obtain ⟨s, hheld, h⟩ := withHeld_eq_ok h
  have htype : ∀ s₀, c₀.streams.find? c₀.frame.ident = some s₀ → s₀.connType = s.connType := by
    intro s₀ hfind
    obtain ⟨r, t, hr, ht, hcollected⟩ := hf.stream
    cases hheld.symm.trans ht
    cases hfind.symm.trans hr
    exact hcollected.connType.symm
  have hrefused : s.connType = .filter →
      ∀ s₀, c₀.streams.find? c₀.frame.ident = some s₀ → 0 = c₀.bodyOctets s₀ := by
    intro hfilter s₀ hfind
    simp [bodyOctets, htype s₀ hfind, hfilter]
  have hbody : ∀ data : Bytes, s.connType ≠ .filter → c₀.paddedLength ≤ c₀.frame.length →
      (data.length = if c₀.frame.hasFlag frameFlagPadded then
        c₀.frame.length - c₀.paddedLength - 1 else c₀.frame.length) →
      (c.setHeld c₀.frame.ident { s with
        request := { s.request with body := s.request.body ++ data } }).dataEnd env = .ok c' →
      Actions env c₀ c c' := by
    intro data hfilter hpad hdata h
    refine .head (.body hheld) (dataEnd_actions (n := data.length) ?_ haccepts hpad ?_ h)
    · refine hf.setHeld hheld rfl fun s₀ _ h => ⟨h.endHeaders, h.connType, h.header, ?_⟩
      simp [h.body]
    · intro s₀ hfind
      simp [bodyOctets, htype s₀ hfind, hfilter, hdata]
  have hnopad : c₀.frame.hasFlag frameFlagPadded = false → c₀.paddedLength ≤ c₀.frame.length := by
    intro hflag
    simp [HttpConnectionEx.paddedLength, hflag]
  split_ifs at h with hflag hpad hfilter _ hfilter
  · exact goaway_actions hf.frame (fun _ => hcode) h
  · exact dataEnd_actions hf haccepts (not_lt.mp hpad) (hrefused hfilter) h
  · exact hbody _ hfilter (not_lt.mp hpad) (by simp [hflag, length_slice]) h
  · exact dataEnd_actions hf haccepts (hnopad (by simpa using hflag)) (hrefused hfilter) h
  · refine hbody _ hfilter (hnopad (by simpa using hflag)) ?_ h
    simp [hflag, payload, length_slice, hf.frame]

theorem dataAccept_actions {s₀ : HttpStream} (hcheck : c₀.checksWindows)
    (hfind : c₀.streams.find? c₀.frame.ident = some s₀) (hf : Following c₀ 0 c)
    (hfirst : ∀ p, accepted p c.trace = accepted p c₀.trace)
    (hconn : c.windowSize = c₀.windowSize) (hheld : c.held c₀.frame.ident = some s)
    (hstream : s.windowSize = s₀.windowSize) (h : c.dataAccept env = .ok c') :
    Actions env c₀ c c' := by
  obtain ⟨htype, hident, -⟩ := checksWindows_spec hcheck
  unfold dataAccept at h
  dsimp only at h
  rw [hf.frame] at h
  obtain ⟨t, ht, h⟩ := withHeld_eq_ok h
  rw [hheld] at ht
  cases ht
  split_ifs at h with hfull
  · refine .head (.touchHeld hheld) (answer_actions h ?_)
    rw [setHeld_frame, hf.frame]
    exact .exceeded hcheck hfind (by omega)
  · obtain ⟨d, hreplenish, h⟩ := bind_eq_ok.mp h
    obtain ⟨e, hreplenish', h⟩ := bind_eq_ok.mp h
    rw [not_or, not_lt, not_lt] at hfull
    have haccepts : c₀.acceptsData := by
      simp [acceptsData, hcheck, hfind, ← hconn, ← hstream, hfull]
    have hlow : ∀ n, n = c₀.windowSize - c₀.frame.length ∨ n = s₀.windowSize - c₀.frame.length →
        n < localInitWindowSize / 2 → c₀.queuesFrame := by
      intro n hn hlt
      rcases hn with rfl | rfl <;> simp [queuesFrame, hfind, hlt]
    have hf₁ : Following c₀ 0 (c.acceptData c₀.frame s) := by
      refine Following.setHeld (n := 0) ?_ hheld rfl ?_
      · exact ⟨hf.frame, hf.tempBuffer, hf.unanswered, hf.quiet, hf.stream⟩
      · exact fun _ _ h => ⟨h.endHeaders, h.connType, h.header, h.body⟩
    have hconn₁ : (c.acceptData c₀.frame s).windowSize = c₀.windowSize - c₀.frame.length := by
      unfold acceptData
      rw [setHeld_windowSize, ← hconn]
      rfl
    obtain ⟨hacts, hf₂, s₂, hheld₂, hsize₂⟩ :=
      replenish_actions hf₁ held_setHeld (hlow _ (.inl hconn₁)) hreplenish
    have hsize₃ : s₂.windowSize = s₀.windowSize - c₀.frame.length := by
      rw [hsize₂, ← hstream]
    obtain ⟨hacts', hf₃⟩ :=
      replenishStream_actions hf₂ hident hheld₂ (hlow _ (.inr hsize₃)) hreplenish'
    exact .head (.accept htype hfirst hheld hfull.1 hfull.2)
      (hacts.trans (hacts'.trans (dataBody_actions hf₃ haccepts h)))

theorem handleDataFrame_actions (hread : c₀.isRead = false) (hint : c₀.interrupts = false)
    (htype : c₀.frame.type = frameTypeData) (h : c₀.handleDataFrame env = .ok c') :
    Actions env c₀ c₀ c' := by
  have hcode : goawayProtocolError ≠ goawayFlowControlError := by decide
  unfold handleDataFrame at h
  dsimp only at h
  split_ifs at h with hack hident hclosed
  · exact goaway_actions rfl (fun _ => hcode) h
  · exact goaway_actions rfl (fun _ => hcode) h
  · exact goaway_actions rfl (fun _ => (by decide : goawayStreamClosed ≠ _)) h
  · rw [not_or, not_not] at hident
    have hack : c₀.expectAck = false := by simpa using hack
    cases hfind : c₀.streams.find? c₀.frame.ident with
    | none =>
      simp only [hfind] at h
      exact goaway_actions rfl (fun _ => hcode) h
    | some s =>
      have hheld := held_of_find? hfind
      have hcheck : c₀.checksWindows := by
        simp [checksWindows, hint, htype, hack, hident, hclosed, OrdMap.contains, hfind]
      have hf : Following c₀ 0 c₀ := by
        refine ⟨rfl, rfl, fun hbefore => ⟨hclosed, s, hfind, ?_⟩, .inl hread,
          s, s, hfind, hheld, rfl, rfl, rfl, rfl⟩
        simpa [respondedBefore, hfind] using hbefore
      simp only [hfind] at h
      split_ifs at h with hended
      · obtain ⟨d, hgoaway, h⟩ := bind_eq_ok.mp h
        have hk := goaway_kept hgoaway
        obtain ⟨s', hheld', hsent⟩ := hk.held _ s hheld
        obtain ⟨t, ht, hall⟩ := hk.trace
        have hf' : Following c₀ 0 (c₀.observe (.goaway c₀.frame goawayProtocolError)) :=
          ⟨hf.frame, hf.tempBuffer, hf.unanswered, hf.quiet, hf.stream⟩
        have hqueue : c₀.queuesFrame := by simp [queuesFrame, hfind, hended]
        have hfirst : ∀ p, accepted p d.trace = accepted p c₀.trace := by
          intro p
          rw [ht, accepted_append p hall]
          rfl
        exact (goaway_actions rfl (fun _ => hcode) hgoaway).trans
          (dataAccept_actions hcheck hfind (hf'.kept hk hqueue) hfirst
            hk.windowSize hheld' hsent.windowSize h)
      · exact dataAccept_actions hcheck hfind hf (fun _ => rfl) rfl hheld
          rfl h

theorem handleFrameHeader_interrupts (hint : c.interrupts) :
    c.handleFrameHeader env = c.writeGoawayFrame c.frame.ident goawayProtocolError := if_pos hint

/-- The rule for a frame that has arrived: a property of what is done with it holds if
it holds of the handler of each type, and of GOAWAY. -/
theorem handleFrameHeader_rule {P : Except Fault HttpConnectionEx → Prop}
    (goaway : ∀ latest msg, P (c.writeGoawayFrame latest goawayProtocolError msg))
    (settings : c.interrupts = false → c.frame.type = frameTypeSettings →
      P (c.handleSettingsFrame >>= fun r =>
        if r.1 = settingsAcked then pure r.2.readFrameHeader
        else if r.1 = 0 then r.2.writeAckFrame else pure r.2))
    (update : c.interrupts = false → c.frame.type = frameTypeWindowUpdate →
      P c.handleWindowUpdate)
    (goawayFrame : c.interrupts = false → c.frame.type = frameTypeGoaway → P c.handleGoawayFrame)
    (headers : c.interrupts = false → isHeaders c.frame →
      (c.frame.type = frameTypeContinuation → c.frame.ident ≠ 0 ∧ c.continues) →
      P (c.handleHeadersFrame env))
    (data : c.interrupts = false → c.frame.type = frameTypeData → P (c.handleDataFrame env))
    (priority : c.interrupts = false → c.frame.type = frameTypePriority → P c.handlePriorityFrame)
    (rstStream : c.interrupts = false → c.frame.type = frameTypeRstStream →
      P (c.handleRstStreamFrame env))
    (ping : c.interrupts = false → c.frame.type = frameTypePing → P c.handlePingFrame) :
    P (c.handleFrameHeader env) := by
  unfold handleFrameHeader
  dsimp only
  refine iteInduction (motive := P) (fun _ => goaway _ _) fun hint => ?_
  have hint : c.interrupts = false := by simpa using hint
  refine iteInduction (motive := P) (settings hint) fun _ => ?_
  refine iteInduction (motive := P) (update hint) fun _ => ?_
  refine iteInduction (motive := P) (goawayFrame hint) fun _ => ?_
  refine iteInduction (motive := P) (fun hcontinuation => ?_) fun hcontinuation => ?_
  · refine iteInduction (motive := P) (fun _ => goaway _ _) fun hident => ?_
    refine iteInduction (motive := P) (fun _ => goaway _ _) fun hcont => ?_
    exact headers hint (by simp [isHeaders, hcontinuation]) fun _ => ⟨hident, by simpa using hcont⟩
  refine iteInduction (motive := P) (fun hheaders => ?_) fun _ => ?_
  · exact headers hint (by simp [isHeaders, hheaders]) (absurd · hcontinuation)
  refine iteInduction (motive := P) (data hint) fun _ => ?_
  refine iteInduction (motive := P) (priority hint) fun _ => ?_
  refine iteInduction (motive := P) (rstStream hint) fun _ => ?_
  exact iteInduction (motive := P) (ping hint) fun _ => goaway _ _

theorem handleFrameHeader_actions (hread : c₀.isRead = false)
    (h : c₀.handleFrameHeader env = .ok c') : Actions env c₀ c₀ c' := by
  have hcode : goawayProtocolError ≠ goawayFlowControlError := by decide
  revert h
  refine handleFrameHeader_rule (P := fun r => r = .ok c' → Actions env c₀ c₀ c')
    ?goaway ?settings ?update ?goawayFrame ?headers ?data ?priority ?rstStream ?ping
  case goaway =>
    intro latest msg h
    exact goaway_actions rfl (fun _ => hcode) h
  case settings =>
    intro hint hsettings h
    obtain ⟨⟨code, d⟩, hset, h⟩ := bind_eq_ok.mp h
    have hacts : Actions env c₀ c₀ d := handleSettingsFrame_actions hint hsettings hset
    have hread' : d.isRead = false := (handleSettingsFrame_isRead hset).trans hread
    dsimp only at h
    split_ifs at h
    · cases h
      exact hacts.tail (.read (.inl hread'))
    · exact hacts.trans (pushed_actions (show frameTypeSettings ≠ frameTypeData by decide)
        (show frameTypeSettings ≠ frameTypeWindowUpdate by decide) rfl h)
    · cases h
      exact hacts
  case update => exact fun _ hupdate => handleWindowUpdate_actions hread hupdate
  case goawayFrame => exact fun _ hgoaway => handleGoawayFrame_actions hread hgoaway
  case headers =>
    intro _ hheaders hcont
    refine handleHeadersFrame_actions hread hheaders fun htype => ?_
    exact (hcont (by simpa [isHeaders, htype] using hheaders)).2
  case data => exact fun hint hdata => handleDataFrame_actions hread hint hdata
  case priority => exact fun _ hpriority => handlePriorityFrame_actions hread hpriority
  case rstStream => exact fun _ hrst => handleRstStreamFrame_actions hread hrst
  case ping => exact fun hint hping => handlePingFrame_actions hint hping

theorem setHeld_trace : (c.setHeld id s).trace = c.trace := by
  unfold setHeld
  split_ifs <;> rfl

theorem Kept.trace_suffix (hk : Kept c c') : c.trace <:+ c'.trace := by
  obtain ⟨t, ht, -⟩ := hk.trace
  exact ⟨t, ht.symm⟩

theorem Action.trace_suffix (h : Action env c₀ c c') : c.trace <:+ c'.trace := by
  cases h with
  | write h => exact (handleWrite_kept h).trace_suffix
  | latest | touch | acked | reset => exact List.suffix_refl _
  | control | goaway | exceeded | read | opened | fragment | credit | creditStream =>
    exact List.suffix_cons _ _
  | once => exact ⟨[_, _], rfl⟩
  | undecodable | completed => exact ⟨[_, _, _], rfl⟩
  | unconvertible | answered => exact ⟨[_, _, _, _], rfl⟩
  | touchHeld | body => rw [setHeld_trace]
  | accept | respond =>
    simp only [acceptData, setHeld_trace]
    exact List.suffix_cons _ _
  | replenish h => exact (pushed_kept h).trace_suffix
  | replenishStream h =>
    rw [setHeld_trace]
    exact (pushed_kept h).trace_suffix
  | setting _ _ h =>
    obtain ⟨_, _, _, _, _, _, _, _, _, rfl, -⟩ := applySetting_eq h
    exact List.suffix_refl _

/-- The rule for the actions of one frame, which may use what was observed before
the frame was handled. -/
theorem Actions.invariant_of_suffix {P : HttpConnectionEx → Prop}
    (hact : ∀ c c', c₀.trace <:+ c.trace → Action env c₀ c c' → P c → P c')
    (h : Actions env c₀ c₀ c') (hc : P c₀) : P c' := by
  have hboth : c₀.trace <:+ c'.trace ∧ P c' := by
    refine Actions.invariant (P := fun c => c₀.trace <:+ c.trace ∧ P c) ?_ h
      ⟨List.suffix_refl _, hc⟩
    exact fun c c' hstep hc => ⟨hc.1.trans hstep.trace_suffix, hact c c' hc.1 hstep hc.2⟩
  exact hboth.2

end HttpConnectionEx
end Sese.Service.Http
