import Sese.Service.Http.Transitions

/-!
# Header blocks are contiguous

Between a frame without END_HEADERS and the CONTINUATION that follows it no other
frame may be handled. The code notes the type of the last frame in each stream, and
refuses other frames only on a stream that has noted CONTINUATION: a frame of
another stream, and any frame directly after HEADERS, is handled as if no header
block were open, unless its own handler refuses it.
-/
namespace Sese.Service.Http

open Foundation Sese.Net.Http

namespace HttpConnectionEx

variable {env : Env} {c₀ c c' : HttpConnectionEx} {id : ℕ} {s s' : HttpStream}
  {o : Obs} {t u : List Obs} {f : Http2FrameInfo}

/-- The last frame that went into a header block, when it has left the block open. -/
def openBlock : List Obs → Option Http2FrameInfo
  | [] => none
  | .fragment f _ :: _ => if f.hasFlag frameFlagEndHeaders then none else some f
  | _ :: t => openBlock t

def IsGoaway (c : HttpConnectionEx) (result : Except Fault HttpConnectionEx) : Prop :=
  ∃ latest code msg once, result = c.writeGoawayFrame latest code msg once

/-- The frame is answered with GOAWAY, and nothing else is done with it. -/
def Refused (env : Env) (c : HttpConnectionEx) : Prop := c.IsGoaway (c.handleFrameHeader env)

/-- A frame that completes with the event while a header block is open continues the
block or is refused. -/
def ContiguousAt (c : HttpConnectionEx) (e : Env × Event) : Prop :=
  ∀ c₀ ∈ c.delivered e.2, ∀ f ∈ openBlock c.trace,
    c₀.frame.type = frameTypeContinuation ∧ c₀.frame.ident = f.ident ∨ Refused e.1 c₀

/-- HEADERS on a new stream that is too old, or one too many. -/
def refusesStream (c : HttpConnectionEx) : Bool :=
  match c.streams.find? c.frame.ident with
  | none => c.frame.ident < c.latestStreamIdent || c.streams.size > localMaxConcurrentStreams
  | some s => s.endHeaders

/-- The handler of the frame answers with GOAWAY before it does anything else. -/
def refuses (c : HttpConnectionEx) : Bool :=
  let f := c.frame
  if f.type = frameTypeSettings then false
  else if f.type = frameTypeWindowUpdate then
    f.length ≠ 4 || fromBigEndian (c.slice 0 4) = 0 || f.ident = 0 &&
      isAdditionOverflow (toInt32 c.endpointInitWindowSize)
        (toInt32 (fromBigEndian (c.slice 0 4)))
  else if f.type = frameTypeGoaway then f.ident ≠ 0
  else if f.type = frameTypeContinuation then f.ident = 0 || !c.continues
  else if f.type = frameTypeHeaders then
    f.ident % 2 ≠ 1 || f.ident ∈ c.closedStreams || c.refusesStream
  else if f.type = frameTypeData then
    c.expectAck || f.ident % 2 ≠ 1 || f.ident ∈ c.closedStreams || !c.streams.contains f.ident
  else if f.type = frameTypePriority then f.ident % 2 ≠ 1 || f.length ≠ 5
  else if f.type = frameTypeRstStream then
    f.ident = 0 || f.length ≠ 4 || f.ident ∉ c.closedStreams && !c.streams.contains f.ident
  else if f.type = frameTypePing then
    f.ident ≠ 0 || f.length ≠ 8 || f.hasFlag settingsFlagsAck
  else true

/-- A frame that arrives while a header block is open continues the block, or is on
its stream after CONTINUATION, or is refused by its own handler. -/
def keepsBlock (c : HttpConnectionEx) : Bool :=
  (openBlock c.trace).all fun f =>
    c.frame.type = frameTypeContinuation && c.frame.ident = f.ident ||
      f.type = frameTypeContinuation && c.frame.ident = f.ident &&
        c.streams.contains c.frame.ident ||
      c.refuses

theorem writeGoawayFrame_isGoaway (latest code : ℕ) (msg : Bytes) (once : Bool) :
    c.IsGoaway (c.writeGoawayFrame latest code msg once) :=
  ⟨latest, code, msg, once, rfl⟩

theorem handleWindowUpdate_isGoaway (h : c.frame.length ≠ 4 ∨ fromBigEndian (c.slice 0 4) = 0 ∨
      c.frame.ident = 0 ∧ isAdditionOverflow (toInt32 c.endpointInitWindowSize)
        (toInt32 (fromBigEndian (c.slice 0 4)))) : c.IsGoaway c.handleWindowUpdate := by
  unfold handleWindowUpdate
  dsimp only
  split_ifs with hlen hzero hident hover
  · apply writeGoawayFrame_isGoaway
  · apply writeGoawayFrame_isGoaway
  · apply writeGoawayFrame_isGoaway
  · simp [hlen, hzero, hover] at h
  · simp [hlen, hzero, hident] at h

theorem handleHeadersFrame_isGoaway (htype : c.frame.type = frameTypeHeaders)
    (h : c.frame.ident % 2 ≠ 1 ∨ c.frame.ident ∈ c.closedStreams ∨ c.refusesStream) :
    c.IsGoaway (c.handleHeadersFrame env) := by
  unfold handleHeadersFrame
  dsimp only
  by_cases hident : c.frame.ident = 0 ∨ c.frame.ident % 2 ≠ 1
  · rw [if_pos hident]
    apply writeGoawayFrame_isGoaway
  by_cases hclosed : c.frame.ident ∈ c.closedStreams
  · rw [if_neg hident, if_pos hclosed]
    apply writeGoawayFrame_isGoaway
  rw [if_neg hident, if_neg hclosed, if_pos htype]
  rw [not_or, not_not] at hident
  have hstream : c.refusesStream := by
    rcases h with h | h | h
    · exact absurd hident.2 h
    · exact absurd h hclosed
    · exact h
  unfold refusesStream at hstream
  cases hfind : c.streams.find? c.frame.ident with
  | none =>
    simp only [hfind, Bool.or_eq_true, decide_eq_true_eq] at hstream ⊢
    split_ifs with hold hmany
    · apply writeGoawayFrame_isGoaway
    · apply writeGoawayFrame_isGoaway
    · rcases hstream with h | h
      · exact absurd h hold
      · exact absurd h hmany
  | some s =>
    simp only [hfind] at hstream ⊢
    rw [if_pos hstream]
    apply writeGoawayFrame_isGoaway

theorem handleDataFrame_isGoaway (h : c.expectAck ∨ c.frame.ident % 2 ≠ 1 ∨
      c.frame.ident ∈ c.closedStreams ∨ c.streams.contains c.frame.ident = false) :
    c.IsGoaway (c.handleDataFrame env) := by
  unfold handleDataFrame
  dsimp only
  split_ifs with hack hident hclosed
  · apply writeGoawayFrame_isGoaway
  · apply writeGoawayFrame_isGoaway
  · apply writeGoawayFrame_isGoaway
  cases hfind : c.streams.find? c.frame.ident with
  | none => apply writeGoawayFrame_isGoaway
  | some s =>
    rw [not_or, not_not] at hident
    simp [hack, hident.2, hclosed, OrdMap.contains, hfind] at h

theorem handlePriorityFrame_isGoaway (h : c.frame.ident % 2 ≠ 1 ∨ c.frame.length ≠ 5) :
    c.IsGoaway c.handlePriorityFrame := by
  unfold handlePriorityFrame
  dsimp only
  split_ifs with hident hlen
  · apply writeGoawayFrame_isGoaway
  · apply writeGoawayFrame_isGoaway
  · rw [not_or, not_not] at hident
    simp [hident.2, hlen] at h

theorem handleRstStreamFrame_isGoaway (h : c.frame.ident = 0 ∨ c.frame.length ≠ 4 ∨
      c.frame.ident ∉ c.closedStreams ∧ c.streams.contains c.frame.ident = false) :
    c.IsGoaway (c.handleRstStreamFrame env) := by
  unfold handleRstStreamFrame
  dsimp only
  split_ifs with hident hlen hclosed
  · apply writeGoawayFrame_isGoaway
  · apply writeGoawayFrame_isGoaway
  · simp [hident, hlen, hclosed] at h
  cases hfind : c.streams.find? c.frame.ident with
  | none => apply writeGoawayFrame_isGoaway
  | some s => simp [hident, hlen, OrdMap.contains, hfind] at h

theorem handlePingFrame_isGoaway
    (h : c.frame.ident ≠ 0 ∨ c.frame.length ≠ 8 ∨ c.frame.hasFlag settingsFlagsAck) :
    c.IsGoaway c.handlePingFrame := by
  unfold handlePingFrame
  split_ifs with hident hlen hack
  · apply writeGoawayFrame_isGoaway
  · apply writeGoawayFrame_isGoaway
  · apply writeGoawayFrame_isGoaway
  · simp [hident, hlen, hack] at h

theorem refused_of_interrupts (h : c.interrupts) : Refused env c := by
  unfold Refused
  rw [handleFrameHeader_interrupts h]
  apply writeGoawayFrame_isGoaway

theorem refused_of_refuses (h : c.refuses) : Refused env c := by
  unfold Refused
  refine handleFrameHeader_rule (P := c.IsGoaway)
    ?goaway ?settings ?update ?goawayFrame ?headers ?data ?priority ?rstStream ?ping
  case goaway => exact fun _ _ => writeGoawayFrame_isGoaway ..
  case settings =>
    intro _ hsettings
    simp [refuses, hsettings] at h
  case update =>
    intro _ hupdate
    refine handleWindowUpdate_isGoaway ?_
    simpa [refuses, hupdate, frameTypeWindowUpdate, frameTypeSettings, or_assoc] using h
  case goawayFrame =>
    intro _ hgoaway
    unfold handleGoawayFrame
    rw [if_pos (by simpa [refuses, hgoaway, frameTypeGoaway, frameTypeSettings,
      frameTypeWindowUpdate] using h)]
    apply writeGoawayFrame_isGoaway
  case headers =>
    intro _ hheaders hcont
    have hcases : c.frame.type = frameTypeHeaders ∨ c.frame.type = frameTypeContinuation := by
      simpa [isHeaders] using hheaders
    rcases hcases with htype | htype
    · refine handleHeadersFrame_isGoaway htype ?_
      simpa [refuses, htype, frameTypeHeaders, frameTypeSettings, frameTypeWindowUpdate,
        frameTypeGoaway, frameTypeContinuation, or_assoc] using h
    · simp [refuses, htype, hcont htype, frameTypeContinuation, frameTypeSettings,
        frameTypeWindowUpdate, frameTypeGoaway] at h
  case data =>
    intro _ hdata
    refine handleDataFrame_isGoaway ?_
    simpa [refuses, hdata, frameTypeData, frameTypeSettings, frameTypeWindowUpdate,
      frameTypeGoaway, frameTypeContinuation, frameTypeHeaders, or_assoc] using h
  case priority =>
    intro _ hpriority
    refine handlePriorityFrame_isGoaway ?_
    simpa [refuses, hpriority, frameTypePriority, frameTypeSettings, frameTypeWindowUpdate,
      frameTypeGoaway, frameTypeContinuation, frameTypeHeaders, frameTypeData] using h
  case rstStream =>
    intro _ hrst
    refine handleRstStreamFrame_isGoaway ?_
    simpa [refuses, hrst, frameTypeRstStream, frameTypeSettings, frameTypeWindowUpdate,
      frameTypeGoaway, frameTypeContinuation, frameTypeHeaders, frameTypeData,
      frameTypePriority, or_assoc] using h
  case ping =>
    intro _ hping
    refine handlePingFrame_isGoaway ?_
    simpa [refuses, hping, frameTypePing, frameTypeSettings, frameTypeWindowUpdate,
      frameTypeGoaway, frameTypeContinuation, frameTypeHeaders, frameTypeData,
      frameTypePriority, frameTypeRstStream, or_assoc] using h

/-- The stream of an open header block is still in it, and has noted CONTINUATION if
that was the last frame of the block. -/
def BlockNoted (c : HttpConnectionEx) : Prop :=
  ∀ f ∈ openBlock c.trace, ∀ s, c.streams.find? f.ident = some s →
    s.endHeaders = false ∧ (f.type = frameTypeContinuation → s.continueType = frameTypeContinuation)

theorem BlockNoted.congr (hc : c.BlockNoted) (htrace : openBlock c'.trace = openBlock c.trace)
    (hstreams : c'.streams = c.streams) : c'.BlockNoted := by
  unfold BlockNoted
  rw [htrace, hstreams]
  exact hc

theorem BlockNoted.setStream (hc : c.BlockNoted) (hfind : c.streams.find? id = some s)
    (hend : s'.endHeaders = s.endHeaders)
    (hnote : ∀ f ∈ openBlock c.trace, f.ident = id → f.type = frameTypeContinuation →
      s.continueType = frameTypeContinuation → s'.continueType = frameTypeContinuation) :
    (c.setStream id s').BlockNoted := by
  intro f hf r hr
  by_cases hid : f.ident = id
  · subst hid
    cases (OrdMap.find?_insert_self _ _ _).symm.trans hr
    obtain ⟨hopen, hlast⟩ := hc f hf s hfind
    exact ⟨hend.trans hopen, fun htype => hnote f hf rfl htype (hlast htype)⟩
  · exact hc f hf r ((OrdMap.find?_insert_of_ne _ _ hid).symm.trans hr)

theorem BlockNoted.setHeld (hc : c.BlockNoted) (hheld : c.held id = some s)
    (hend : s'.endHeaders = s.endHeaders)
    (hnote : ∀ f ∈ openBlock c.trace, f.ident = id → f.type = frameTypeContinuation →
      s.continueType = frameTypeContinuation → s'.continueType = frameTypeContinuation) :
    (c.setHeld id s').BlockNoted := by
  unfold HttpConnectionEx.setHeld
  split_ifs with hin
  · obtain ⟨r, hfind⟩ := Option.isSome_iff_exists.mp hin
    cases (held_of_find? hfind).symm.trans hheld
    exact hc.setStream hfind hend hnote
  · exact hc.congr rfl rfl

theorem BlockNoted.retire (hc : c.BlockNoted) (id : ℕ) (s : HttpStream) :
    (c.retire id s).BlockNoted := by
  intro f hf r hr
  by_cases hid : f.ident = id
  · subst hid
    cases (OrdMap.find?_erase_self _ _).symm.trans hr
  · exact hc f hf r ((OrdMap.find?_erase_of_ne _ hid).symm.trans hr)

theorem BlockNoted.handleWrite (h : c.handleWrite = .ok c') (hc : c.BlockNoted) :
    c'.BlockNoted := by
  refine handleWrite_invariant (P := BlockNoted) ?_ ?_ ?_ ?_ ?_ ?_ h hc
  · exact fun _ hd _ => hd.congr rfl rfl
  · exact fun _ hd => hd.congr rfl rfl
  · exact fun _ _ _ _ hd _ _ => hd.congr rfl rfl
  · intro d id s s' hd hfind _ hsent
    apply hd.setStream hfind hsent.endHeaders
    intro f _ _ _ hlast
    exact hsent.continueType.trans hlast
  · exact fun _ id _ s' hd _ _ _ => hd.retire id s'
  · intro d hd _
    unfold flush
    split_ifs <;> exact hd.congr rfl rfl

theorem BlockNoted.pushed {f : Http2Frame} (h : (c.push f).handleWrite = .ok c')
    (hc : c.BlockNoted) : c'.BlockNoted :=
  BlockNoted.handleWrite h (hc.congr rfl rfl)

theorem BlockNoted.refused (hrefused : Refused env c) (h : c.handleFrameHeader env = .ok c')
    (hc : c.BlockNoted) : c'.BlockNoted := by
  obtain ⟨latest, code, msg, once, heq⟩ := hrefused
  rw [heq] at h
  unfold writeGoawayFrame at h
  cases once with
  | true =>
    cases h
    exact hc.congr rfl rfl
  | false => exact BlockNoted.pushed h (hc.congr rfl rfl)

/-- In the course of a frame: a header block that is open is that of the frame. -/
structure OwnBlock (c₀ c : HttpConnectionEx) : Prop where
  noted : c.BlockNoted
  own : ∀ f ∈ openBlock c.trace, f.ident = c₀.frame.ident ∧
    (f.type = frameTypeContinuation → c₀.frame.type = frameTypeContinuation)

theorem openBlock_kept (hk : Kept c c') : openBlock c'.trace = openBlock c.trace := by
  obtain ⟨t, ht, hall⟩ := hk.trace
  rw [ht]
  clear ht
  induction t with
  | nil => rfl
  | cons o t ih =>
    have ho := hall o List.mem_cons_self
    have ih := ih fun o ho => hall o (List.mem_cons_of_mem _ ho)
    cases o <;> first | exact ih | cases ho

theorem OwnBlock.kept (hc : OwnBlock c₀ c) (hk : Kept c c') (hnoted : c'.BlockNoted) :
    OwnBlock c₀ c' := by
  refine ⟨hnoted, ?_⟩
  rw [openBlock_kept hk]
  exact hc.own

theorem OwnBlock.congr (hc : OwnBlock c₀ c) (htrace : openBlock c'.trace = openBlock c.trace)
    (hstreams : c'.streams = c.streams) : OwnBlock c₀ c' := by
  refine ⟨hc.noted.congr htrace hstreams, ?_⟩
  rw [htrace]
  exact hc.own

theorem OwnBlock.setHeld (hc : OwnBlock c₀ c) (hheld : c.held c₀.frame.ident = some s)
    (hend : s'.endHeaders = s.endHeaders)
    (hnote : c₀.frame.type = frameTypeContinuation → s.continueType = frameTypeContinuation →
      s'.continueType = frameTypeContinuation) :
    OwnBlock c₀ (c.setHeld c₀.frame.ident s') := by
  constructor
  · apply hc.noted.setHeld hheld hend
    intro f hf _ htype hlast
    exact hnote ((hc.own f hf).2 htype) hlast
  · rw [setHeld_trace]
    exact hc.own

theorem OwnBlock.setStream (hc : OwnBlock c₀ c) (hfind : c.streams.find? c₀.frame.ident = some s)
    (hend : s'.endHeaders = s.endHeaders)
    (hnote : c₀.frame.type = frameTypeContinuation → s.continueType = frameTypeContinuation →
      s'.continueType = frameTypeContinuation) :
    OwnBlock c₀ (c.setStream c₀.frame.ident s') := by
  rw [← setHeld_of_find? hfind]
  exact hc.setHeld (held_of_find? hfind) hend hnote

theorem OwnBlock.blockEnd (hend : openBlock c'.trace = none) : OwnBlock c₀ c' := by
  constructor
  · intro f hf
    rw [hend] at hf
    cases hf
  · intro f hf
    rw [hend] at hf
    cases hf

theorem OwnBlock.action (hcont : openBlock c₀.trace ≠ none → c₀.frame.type = frameTypeContinuation)
    (h : Action env c₀ c c') (hc : OwnBlock c₀ c) : OwnBlock c₀ c' := by
  cases h with
  | write h => exact hc.kept (handleWrite_kept h) (hc.noted.handleWrite h)
  | control | goaway | exceeded | once | read | latest | credit | acked => exact hc.congr rfl rfl
  | opened h =>
    apply OwnBlock.blockEnd
    by_contra hopen
    have htype := hcont hopen
    simp [opens, htype, frameTypeContinuation, frameTypeHeaders, frameTypePriority] at h
  | touch hfind => exact hc.setStream hfind rfl fun htype _ => htype
  | touchHeld hheld => exact hc.setHeld hheld rfl fun htype _ => htype
  | body hheld => exact hc.setHeld hheld rfl fun _ hlast => hlast
  | @fragment _ s s' block _ _ _ hend hphase _ hlast hflag =>
    have hopen : openBlock ((c.observe (.fragment c₀.frame block)).setStream c₀.frame.ident
        s').trace = some c₀.frame := if_neg (by simp [hflag])
    constructor
    · intro f hf r hr
      rw [hopen] at hf
      cases hf
      cases (OrdMap.find?_insert_self _ _ _).symm.trans hr
      exact ⟨hphase.endHeaders.trans hend, fun htype => hlast.trans htype⟩
    · intro f hf
      rw [hopen] at hf
      cases hf
      exact ⟨rfl, fun htype => htype⟩
  | undecodable _ _ _ _ _ _ _ _ _ hflag => exact OwnBlock.blockEnd (if_pos hflag)
  | unconvertible _ _ _ _ _ _ _ _ hflag => exact OwnBlock.blockEnd (if_pos hflag)
  | completed _ _ _ _ _ _ _ _ hflag => exact OwnBlock.blockEnd (if_pos hflag)
  | answered _ _ _ _ _ _ _ _ _ hflag => exact OwnBlock.blockEnd (if_pos hflag)
  | accept _ _ hheld =>
    refine OwnBlock.setHeld ?_ hheld rfl fun htype _ => htype
    exact hc.congr rfl rfl
  | replenish h =>
    have hd := hc.kept (pushed_kept h) (hc.noted.pushed h)
    exact hd.congr rfl rfl
  | replenishStream h hheld =>
    exact (hc.kept (pushed_kept h) (hc.noted.pushed h)).setHeld hheld rfl fun _ hlast => hlast
  | respond hends hheld hphase =>
    refine OwnBlock.setHeld ?_ hheld hphase.endHeaders ?_
    · exact hc.congr rfl rfl
    · intro htype
      cases (isData_of_endsRequest hends).symm.trans htype
  | creditStream _ _ hfind =>
    refine OwnBlock.congr (c := c.setStream c₀.frame.ident _) ?_ rfl rfl
    exact hc.setStream hfind rfl fun htype _ => htype
  | setting _ _ h =>
    obtain ⟨_, _, _, _, _, _, _, _, _, rfl, -⟩ := applySetting_eq h
    exact hc.congr rfl rfl
  | @reset _ s _ hfind =>
    have hd := hc.noted.retire c₀.frame.ident s
    exact ⟨hd.congr rfl rfl, hc.own⟩

/-- The condition on the frame is enough, given what the streams have noted. -/
theorem BlockNoted.continues_or_refused (hc : c.BlockNoted) (hok : c.keepsBlock)
    (hf : f ∈ openBlock c.trace) :
    c.frame.type = frameTypeContinuation ∧ c.frame.ident = f.ident ∨ Refused env c := by
  rw [Option.mem_def] at hf
  simp only [keepsBlock, hf, Option.all_some, Bool.or_eq_true, Bool.and_eq_true,
    decide_eq_true_eq] at hok
  by_cases hcont : c.frame.type = frameTypeContinuation ∧ c.frame.ident = f.ident
  · exact .inl hcont
  right
  rcases hok with (hok | ⟨⟨htype, hident⟩, hin⟩) | hok
  · exact absurd hok hcont
  · obtain ⟨s, hfind⟩ := Option.isSome_iff_exists.mp hin
    obtain ⟨hopen, hlast⟩ := hc f hf s (hident ▸ hfind)
    have hother : c.frame.type ≠ frameTypeContinuation := fun h => hcont ⟨h, hident⟩
    apply refused_of_interrupts
    simp [interrupts, hother, hfind, hlast htype, hopen]
  · exact refused_of_refuses hok

theorem BlockNoted.outcome {e : Event} (hok : onFrame (fun c₀ => c₀.keepsBlock) c (env, e))
    (h : Outcome env c e c') (hc : c.BlockNoted) : c'.BlockNoted := by
  cases h with
  | more | stranger | tooLong | header | readFailed | lastWritten | writeFailed =>
    exact hc.congr rfl rfl
  | greeted _ _ h => exact BlockNoted.pushed h (hc.congr rfl rfl)
  | written _ h => exact BlockNoted.handleWrite h (hc.congr rfl rfl)
  | @frame _ _ _ c₀ _ _ hc₀ hdel hacts h =>
    have hd : c₀.BlockNoted := by
      rw [hc₀]
      exact hc.congr rfl rfl
    by_cases hrefused : Refused env c₀
    · exact hd.refused hrefused h
    have hcont : ∀ f ∈ openBlock c₀.trace,
        c₀.frame.type = frameTypeContinuation ∧ c₀.frame.ident = f.ident := by
      intro f hf
      rcases hd.continues_or_refused (hok _ hdel) hf with h | h
      · exact h
      · exact absurd h hrefused
    have htype : openBlock c₀.trace ≠ none → c₀.frame.type = frameTypeContinuation := by
      intro hne
      obtain ⟨f, hf⟩ := Option.ne_none_iff_exists'.mp hne
      exact (hcont f hf).1
    have hown : OwnBlock c₀ c₀ :=
      ⟨hd, fun f hf => ⟨(hcont f hf).2.symm, fun _ => (hcont f hf).1⟩⟩
    exact (hacts.invariant (fun _ _ hact hd => hd.action htype hact) hown).noted

/-- Every run in which the frames that arrive while a header block is open keep the
block is one in which each such frame continues the block or is refused. -/
theorem headerBlocks_contiguous {es : List (Env × Event)}
    (hrun : RunWhere step (onFrame fun c₀ => c₀.keepsBlock) start es c) :
    RunWhere step ContiguousAt start es c := by
  have hstart : start.BlockNoted := by
    intro f hf
    cases hf
  refine hrun.strengthen BlockNoted ?_ ?_ hstart
  · intro c e c' hc hok hst
    exact hc.outcome hok (step_outcome hst)
  · intro c e hc hok c₀ hdel f hf
    obtain ⟨i, op, data, rfl⟩ := delivered_eq_some hdel
    have hd : ((c.received i op data).observe (.recv c.frame)).BlockNoted := hc.congr rfl rfl
    exact hd.continues_or_refused (hok _ hdel) hf

/-- HEADERS without END_HEADERS on stream 1, and an event after it. -/
def openBlockRun (es : List (Env × Event)) : List (Env × Event) :=
  greeting (servletService []) ++ incoming (servletService []) frameTypeHeaders 1 1 [0x82] ++ es

/-- DATA before the acknowledgement of the settings is refused, then the block goes
on. -/
theorem headerBlocks_contiguous_request : ∃ es c, RunWhere step ContiguousAt start es c ∧
    openBlock c.trace = some ⟨1, frameTypeContinuation, 0, 1⟩ := by
  obtain ⟨c, hrun, hc⟩ := exists_run_of_any step (onFrame fun c₀ => c₀.keepsBlock) start
    (openBlockRun (incoming (servletService []) frameTypeData 0 3 [] ++
      incoming (servletService []) frameTypeContinuation 0 1 [0x86]))
    (fun c => openBlock c.trace = some ⟨1, frameTypeContinuation, 0, 1⟩) (by decide +kernel)
  exact ⟨_, c, headerBlocks_contiguous hrun, by simpa using hc⟩

theorem IsGoaway.observed {result : Except Fault HttpConnectionEx} (h : c.IsGoaway result)
    (hresult : result = .ok c') : ∃ code, .goaway c.frame code ∈ c'.trace := by
  obtain ⟨latest, code, msg, once, rfl⟩ := h
  refine ⟨code, ?_⟩
  cases once with
  | true =>
    cases hresult
    simp [observe, writeBlock]
  | false =>
    have hsuffix := (goaway_kept hresult).trace_suffix
    exact hsuffix.subset List.mem_cons_self

def isAnswered (t : List Obs) : Bool :=
  t.any fun
    | .goaway _ _ => true
    | _ => false

/-- The header of PING after HEADERS; its payload comes next. -/
def pingRun : List (Env × Event) :=
  openBlockRun [(servletService [], .read 0 [0, 0, 8, 6, 0, 0, 0, 0, 0])]

def pingPayload : Env × Event := (servletService [], .read 0 (List.replicate 8 0))

/-- PING is handled while the header block of stream 1 is open. -/
theorem pingRun_not_contiguous : ∃ c, RunWhere step Unrestricted start (pingRun ++ [pingPayload]) c ∧
    ¬ RunWhere step ContiguousAt start (pingRun ++ [pingPayload]) c := by
  obtain ⟨c, hrun, hc⟩ := exists_run_of_any step Unrestricted start (pingRun ++ [pingPayload])
    (fun c => !isAnswered c.trace) (by decide +kernel)
  refine ⟨c, hrun, fun h => ?_⟩
  obtain ⟨d, hrun', hcont, hstep⟩ := h.last
  obtain ⟨d', hrun'', hd⟩ := exists_run_of_any step Unrestricted start pingRun
    (fun d => (openBlock d.trace).isSome &&
      (d.delivered pingPayload.2).any fun c₀ => c₀.frame.type = frameTypePing) (by decide +kernel)
  cases hrun'.unique hrun''
  simp only [Bool.and_eq_true, Option.isSome_iff_exists, Option.any_eq_true,
    decide_eq_true_eq] at hd
  obtain ⟨⟨f, hf⟩, c₀, hdel, htype⟩ := hd
  rcases hcont c₀ hdel f hf with ⟨hframe, -⟩ | hrefused
  · rw [htype] at hframe
    cases hframe
  · rw [step_of_delivered hdel] at hstep
    obtain ⟨code, hmem⟩ := hrefused.observed hstep
    have hanswered : isAnswered c.trace := List.any_eq_true.mpr ⟨_, hmem, rfl⟩
    rw [hanswered] at hc
    cases hc

end HttpConnectionEx
end Sese.Service.Http
