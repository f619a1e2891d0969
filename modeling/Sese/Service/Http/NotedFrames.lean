import Sese.Service.Http.Actions

/-!
# The handlers with notes of what they take

A handler takes slices of `temp_buffer`: an offset, and a length that is computed in
unsigned arithmetic. `Slice` has the length as an integer, so a computation that
wraps around is a negative length.

The handlers are written once more, with `take` for every access to the buffer; it
notes the slice before it reads it. Without the notes they are the handlers:
`notedFrameHeader_result`.
-/
namespace Sese.Service.Http

open Foundation Sese.Net.Http

/-- A slice of `temp_buffer`. -/
structure Slice where
  offset : ℕ
  length : ℤ
  deriving DecidableEq

/-- The slice lies within the first `n` octets, and its length did not wrap around. -/
def Slice.Within (sl : Slice) (n : ℕ) : Prop := 0 ≤ sl.length ∧ sl.offset + sl.length ≤ n

/-- A computation and the slices that it has taken, up to the fault that may end it. -/
structure Noted (α : Type) where
  slices : List Slice
  result : Except Fault α

namespace Noted

variable {α β : Type}

instance : Monad Noted where
  pure a := ⟨[], .ok a⟩
  bind x f := match x.result with
    | .ok a => ⟨x.slices ++ (f a).slices, (f a).result⟩
    | .error e => ⟨x.slices, .error e⟩

/-- A computation that takes no slices. -/
def plain (x : Except Fault α) : Noted α := ⟨[], x⟩

@[simp] theorem plain_slices (x : Except Fault α) : (plain x).slices = [] := rfl

@[simp] theorem plain_result (x : Except Fault α) : (plain x).result = x := rfl

@[simp] theorem bind_result (x : Noted α) (f : α → Noted β) :
    (x >>= f).result = x.result >>= fun a => (f a).result := by
  change (match x.result with
    | .ok a => (⟨x.slices ++ (f a).slices, (f a).result⟩ : Noted β)
    | .error e => ⟨x.slices, .error e⟩).result = _
  cases x.result <;> rfl

theorem bind_slices_of_ok {x : Noted α} {a : α} (h : x.result = .ok a) (f : α → Noted β) :
    (x >>= f).slices = x.slices ++ (f a).slices := by
  change (match x.result with
    | .ok a => (⟨x.slices ++ (f a).slices, (f a).result⟩ : Noted β)
    | .error e => ⟨x.slices, .error e⟩).slices = _
  rw [h]

theorem bind_slices_of_error {x : Noted α} {e : Fault} (h : x.result = .error e)
    (f : α → Noted β) : (x >>= f).slices = x.slices := by
  change (match x.result with
    | .ok a => (⟨x.slices ++ (f a).slices, (f a).result⟩ : Noted β)
    | .error e => ⟨x.slices, .error e⟩).slices = _
  rw [h]

theorem ok_bind_slices (a : α) (f : α → Noted β) : (plain (.ok a) >>= f).slices = (f a).slices :=
  bind_slices_of_ok rfl f

theorem error_bind_slices (e : Fault) (f : α → Noted β) : (plain (.error e) >>= f).slices = [] :=
  bind_slices_of_error rfl f

end Noted

namespace HttpConnectionEx

variable {env : Env} {c₀ c c' d : HttpConnectionEx} {id : ℕ} {s s' : HttpStream}

/-- The octets of a slice. Nearly 4 GiB are read when its length has wrapped around. -/
def take (c : HttpConnectionEx) (offset : ℕ) (length : ℤ) : Noted Bytes where
  slices := [⟨offset, length⟩]
  result := if length < 0 then .error .overread else .ok (c.slice offset length.toNat)

/-- Goes on with the stream that the handler has taken from `streams`. -/
def notedHeld (c : HttpConnectionEx) (id : ℕ) (next : HttpStream → Noted HttpConnectionEx) :
    Noted HttpConnectionEx :=
  match c.held id with
  | some s => next s
  | none => .plain (.error .nullPointer)

def notedWindowUpdate (c : HttpConnectionEx) : Noted HttpConnectionEx :=
  let ident := c.frame.ident
  if c.frame.length ≠ 4 then .plain (c.writeGoawayFrame ident goawayFrameSizeError)
  else do
    let i := fromBigEndian (← c.take 0 4)
    if i = 0 then .plain (c.writeGoawayFrame ident goawayProtocolError)
    else if ident = 0 then
      if isAdditionOverflow (toInt32 c.endpointInitWindowSize) (toInt32 i) then
        .plain (c.writeGoawayFrame ident goawayFlowControlError)
      else
        return ({ c with endpointWindowSize := (c.endpointWindowSize + i) % 2 ^ 32 }.observe
          (.credit ident i)).readFrameHeader
    else
      match c.streams.find? ident with
      | none => return c.readFrameHeader
      | some s =>
        let s := { s with continueType := c.frame.type }
        if isAdditionOverflow (toInt32 s.endpointWindowSize) (toInt32 i) then
          .plain ((c.setStream ident s).writeRstStreamFrame ident goawayFlowControlError)
        else
          let s := { s with endpointWindowSize := (s.endpointWindowSize + i) % 2 ^ 32 }
          return ((c.setStream ident s).observe (.credit ident i)).readFrameHeader

/-- The rest of the payload of a GOAWAY frame, behind the two integers. -/
def notedMessage (c : HttpConnectionEx) : Noted HttpConnectionEx := do
  if c.frame.length = 8 then return c.readFrameHeader
  else
    let msg ← c.take 8 (c.frame.length - 8)
    if msg = bytes "shutdown" then return c else return c.readFrameHeader

/-- The two integers are read and not used. -/
def notedGoawayFrame (c : HttpConnectionEx) : Noted HttpConnectionEx :=
  if c.frame.ident ≠ 0 then .plain (c.writeGoawayFrame 0 goawayProtocolError)
  else do
    let c := match c.streams.find? c.frame.ident with
      | some s => c.setStream c.frame.ident { s with continueType := c.frame.type }
      | none => c
    let _ ← c.take 0 4
    let _ ← c.take 4 4
    c.notedMessage

/-- `padded`, which stays 0 without the flag. -/
def notedPadding (c : HttpConnectionEx) : Noted ℕ :=
  if c.frame.hasFlag frameFlagPadded then do return fromBigEndian (← c.take 0 1)
  else return 0

/-- The priority fields: whether the stream depends on itself. The weight is not used. -/
def notedPriorityFields (c : HttpConnectionEx) (offset : ℕ) : Noted Bool :=
  if c.frame.hasFlag frameFlagPriority then do
    let dependency ← c.take offset 4
    let _ ← c.take (offset + 4) 1
    return fromBigEndian dependency = c.frame.ident
  else return false

def notedFragment (env : Env) (c : HttpConnectionEx) (s : HttpStream) : Noted HttpConnectionEx :=
  let ident := c.frame.ident
  let s := { s with continueType := c.frame.type }
  do
    let padded ← c.notedPadding
    let self ← c.notedPriorityFields (if c.frame.hasFlag frameFlagPadded then 1 else 0)
    if self then .plain ((c.setStream ident s).writeGoawayFrame ident goawayProtocolError)
    else if padded > c.frame.length then
      .plain ((c.setStream ident s).writeGoawayFrame ident goawayProtocolError)
    else
      let block ← c.take (fragmentOffset c.frame)
        (c.frame.length - padded - fragmentOffset c.frame)
      let s := { s with
        tempBuffer := s.tempBuffer ++ block
        endHeaders := s.endHeaders || c.frame.hasFlag frameFlagEndHeaders
        endStream := s.endStream || c.frame.hasFlag frameFlagEndStream }
      let c := c.observe (.fragment c.frame block)
      if s.endHeaders then .plain (c.headersEnd env s)
      else return (c.setStream ident s).readFrameHeader

def notedHeadersFrame (env : Env) (c : HttpConnectionEx) : Noted HttpConnectionEx :=
  let ident := c.frame.ident
  if ident = 0 ∨ ident % 2 ≠ 1 then .plain (c.writeGoawayFrame 0 goawayProtocolError)
  else if ident ∈ c.closedStreams then .plain (c.writeGoawayFrame ident goawayStreamClosed)
  else if c.frame.type = frameTypeHeaders then
    match c.streams.find? ident with
    | none =>
      if ident < c.latestStreamIdent then .plain (c.writeGoawayFrame 0 goawayProtocolError)
      else if c.streams.size > localMaxConcurrentStreams then
        .plain (c.writeGoawayFrame 0 goawayProtocolError (bytes "shutdown") true)
      else
        { c.openStream ident with latestStreamIdent := ident }.notedFragment env
          { endpointWindowSize := c.endpointInitWindowSize }
    | some s =>
      if s.endHeaders then .plain (c.writeGoawayFrame ident goawayProtocolError)
      else c.notedFragment env s
  else
    match c.streams.find? ident with
    | none => .plain (c.writeGoawayFrame ident goawayProtocolError)
    | some s => c.notedFragment env s

/-- The part of `handleDataFrame` that takes the payload. -/
def notedBody (env : Env) (c : HttpConnectionEx) : Noted HttpConnectionEx :=
  let ident := c.frame.ident
  let append (c : HttpConnectionEx) (s : HttpStream) (data : Bytes) : HttpConnectionEx :=
    c.setHeld ident { s with request := { s.request with body := s.request.body ++ data } }
  c.notedHeld ident fun s =>
    if c.frame.hasFlag frameFlagPadded then do
      let padded := fromBigEndian (← c.take 0 1)
      if padded > c.frame.length then .plain (c.writeGoawayFrame ident goawayProtocolError)
      else if s.connType = .filter then .plain (c.dataEnd env)
      else
        let data ← c.take 1 (c.frame.length - padded - 1)
        .plain ((append c s data).dataEnd env)
    else if s.connType = .filter then .plain (c.dataEnd env)
    else do
      let data ← c.take 0 c.frame.length
      .plain ((append c s data).dataEnd env)

def notedAccept (env : Env) (c : HttpConnectionEx) : Noted HttpConnectionEx :=
  let ident := c.frame.ident
  let length := c.frame.length
  c.notedHeld ident fun s =>
    if length > c.windowSize ∨ length > s.windowSize then
      .plain ((c.setHeld ident { s with continueType := c.frame.type }).writeGoawayFrame ident
        goawayFlowControlError)
    else do
      let c ← .plain (c.acceptData c.frame s).replenish
      let c ← .plain c.replenishStream
      c.notedBody env

def notedDataFrame (env : Env) (c : HttpConnectionEx) : Noted HttpConnectionEx :=
  let ident := c.frame.ident
  if c.expectAck then .plain (c.writeGoawayFrame 0 goawayProtocolError (bytes "expect ack"))
  else if ident = 0 ∨ ident % 2 ≠ 1 then .plain (c.writeGoawayFrame 0 goawayProtocolError)
  else if ident ∈ c.closedStreams then .plain (c.writeGoawayFrame ident goawayStreamClosed)
  else
    match c.streams.find? ident with
    | none => .plain (c.writeGoawayFrame ident goawayProtocolError)
    | some s =>
      if s.endStream then do
        let c ← .plain (c.writeGoawayFrame ident goawayProtocolError)
        c.notedAccept env
      else c.notedAccept env

/-- The weight is read and not used. -/
def notedPriority (c : HttpConnectionEx) (s : HttpStream) : Noted HttpConnectionEx :=
  let ident := c.frame.ident
  let c := c.setStream ident { s with continueType := c.frame.type }
  do
    let dependency := fromBigEndian (← c.take 0 4) % 2 ^ 31
    let _ ← c.take 4 1
    if dependency = ident then .plain (c.writeGoawayFrame ident goawayProtocolError)
    else return c.readFrameHeader

def notedPriorityFrame (c : HttpConnectionEx) : Noted HttpConnectionEx :=
  let ident := c.frame.ident
  if ident = 0 ∨ ident % 2 ≠ 1 then .plain (c.writeGoawayFrame 0 goawayProtocolError)
  else if c.frame.length ≠ 5 then .plain (c.writeGoawayFrame ident goawayFrameSizeError)
  else
    match c.streams.find? ident with
    | none => (c.openStream ident).notedPriority { endpointWindowSize := c.endpointInitWindowSize }
    | some s => c.notedPriority s

def notedPingFrame (c : HttpConnectionEx) : Noted HttpConnectionEx :=
  if c.frame.ident ≠ 0 then .plain (c.writeGoawayFrame 0 goawayProtocolError [] true)
  else if c.frame.length ≠ 8 then .plain (c.writeGoawayFrame 0 goawayFrameSizeError)
  else if c.frame.hasFlag settingsFlagsAck then
    .plain (c.writeGoawayFrame 0 goawayProtocolError (bytes "unexpected ping with ack"))
  else do
    let content ← c.take 0 8
    .plain (c.push {
      type := frameTypePing
      flags := settingsFlagsAck
      length := 8
      content := content }).handleWrite

/-- `handleFrameHeader`. The settings are read through a stream over the payload, and
RST_STREAM frames are not read at all. -/
def notedFrameHeader (env : Env) (c : HttpConnectionEx) : Noted HttpConnectionEx :=
  let ident := c.frame.ident
  if c.interrupts then .plain (c.writeGoawayFrame ident goawayProtocolError)
  else if c.frame.type = frameTypeSettings then .plain (c.handleFrameHeader env)
  else if c.frame.type = frameTypeWindowUpdate then c.notedWindowUpdate
  else if c.frame.type = frameTypeGoaway then c.notedGoawayFrame
  else if c.frame.type = frameTypeContinuation then
    if ident = 0 then .plain (c.writeGoawayFrame 0 goawayProtocolError)
    else if !c.continues then .plain (c.writeGoawayFrame ident goawayProtocolError)
    else c.notedHeadersFrame env
  else if c.frame.type = frameTypeHeaders then c.notedHeadersFrame env
  else if c.frame.type = frameTypeData then c.notedDataFrame env
  else if c.frame.type = frameTypePriority then c.notedPriorityFrame
  else if c.frame.type = frameTypeRstStream then .plain (c.handleRstStreamFrame env)
  else if c.frame.type = frameTypePing then c.notedPingFrame
  else .plain (c.writeGoawayFrame 0 goawayProtocolError (bytes "unknown frame type"))

theorem take_result_nat (c : HttpConnectionEx) (offset n : ℕ) :
    (c.take offset n).result = .ok (c.slice offset n) := by
  simp [take]

theorem take_result_of_neg {offset : ℕ} {n : ℤ} (h : n < 0) :
    (c.take offset n).result = .error .overread := if_pos h

theorem notedWindowUpdate_result : c.notedWindowUpdate.result = c.handleWindowUpdate := by
  have htake : (c.take 0 4).result = .ok (c.slice 0 4) := c.take_result_nat 0 4
  unfold notedWindowUpdate handleWindowUpdate
  dsimp only
  by_cases hlen : c.frame.length ≠ 4
  · rw [if_pos hlen, if_pos hlen]
    rfl
  rw [if_neg hlen, if_neg hlen, Noted.bind_result, htake, ok_bind]
  split_ifs
  · rfl
  · rfl
  · rfl
  · cases c.streams.find? c.frame.ident with
    | none => rfl
    | some s =>
      dsimp only
      split_ifs <;> rfl

theorem notedMessage_result : c.notedMessage.result = if c.frame.length < 8 then .error .overread
    else if c.slice 8 (c.frame.length - 8) = bytes "shutdown" then .ok c
    else .ok c.readFrameHeader := by
  unfold notedMessage
  rcases lt_trichotomy c.frame.length 8 with hlen | hlen | hlen
  · rw [if_neg (by omega), if_pos hlen, Noted.bind_result, take_result_of_neg (by omega)]
    rfl
  · have hempty : c.slice 8 (c.frame.length - 8) ≠ bytes "shutdown" := by
      intro h
      have hlength := congrArg List.length h
      rw [length_slice, hlen] at hlength
      exact absurd hlength (by decide)
    rw [if_pos hlen, if_neg (by omega), if_neg hempty]
    rfl
  · have hmsg : (c.take 8 (c.frame.length - 8)).result = .ok (c.slice 8 (c.frame.length - 8)) := by
      have h := c.take_result_nat 8 (c.frame.length - 8)
      rwa [Nat.cast_sub hlen.le] at h
    rw [if_neg (by omega), if_neg (by omega), Noted.bind_result, hmsg, ok_bind]
    split_ifs <;> rfl

theorem notedGoawayFrame_result : c.notedGoawayFrame.result = c.handleGoawayFrame := by
  have htail : ∀ d : HttpConnectionEx,
      (d.take 0 4 >>= fun _ => d.take 4 4 >>= fun _ => d.notedMessage).result =
        d.notedMessage.result := by
    intro d
    have hlatest : (d.take 0 4).result = .ok (d.slice 0 4) := d.take_result_nat 0 4
    have hcode : (d.take 4 4).result = .ok (d.slice 4 4) := d.take_result_nat 4 4
    rw [Noted.bind_result, hlatest, ok_bind, Noted.bind_result, hcode, ok_bind]
  unfold notedGoawayFrame handleGoawayFrame
  by_cases hident : c.frame.ident ≠ 0
  · rw [if_pos hident, if_pos hident]
    rfl
  rw [if_neg hident, if_neg hident]
  cases c.streams.find? c.frame.ident with
  | none => exact (htail _).trans notedMessage_result
  | some s => exact (htail _).trans notedMessage_result

theorem notedPadding_result : c.notedPadding.result = .ok c.paddedLength := by
  unfold notedPadding paddedLength
  split_ifs
  · rw [Noted.bind_result, show (c.take 0 1).result = _ from c.take_result_nat 0 1]
    rfl
  · rfl

theorem notedPriorityFields_result :
    (c.notedPriorityFields (if c.frame.hasFlag frameFlagPadded then 1 else 0)).result =
      .ok c.dependsOnItself := by
  unfold notedPriorityFields dependsOnItself
  by_cases hflag : c.frame.hasFlag frameFlagPriority = true
  · have hoffset : (if c.frame.hasFlag frameFlagPadded then 1 else 0) = fragmentOffset c.frame - 5 := by
      simp [fragmentOffset, hflag]
    rw [if_pos hflag, hoffset, Noted.bind_result,
      show (c.take (fragmentOffset c.frame - 5) 4).result = _ from c.take_result_nat _ 4, ok_bind,
      Noted.bind_result, show (c.take (fragmentOffset c.frame - 5 + 4) 1).result = _ from
        c.take_result_nat _ 1, ok_bind]
    simp [hflag]
    rfl
  · rw [if_neg hflag]
    simp [hflag]
    rfl

theorem notedFragment_result : (c.notedFragment env s).result = c.headersFragment env s := by
  unfold notedFragment headersFragment
  dsimp only
  rw [Noted.bind_result, notedPadding_result, ok_bind, Noted.bind_result,
    notedPriorityFields_result, ok_bind]
  by_cases hself : c.dependsOnItself = true
  · rw [if_pos hself, if_pos hself]
    rfl
  rw [if_neg hself, if_neg hself]
  by_cases hpad : c.paddedLength > c.frame.length
  · rw [if_pos hpad, if_pos hpad]
    rfl
  rw [if_neg hpad, if_neg hpad, Noted.bind_result]
  by_cases hlen : c.frame.length < c.paddedLength + fragmentOffset c.frame
  · rw [if_pos hlen, take_result_of_neg (by omega)]
    rfl
  · have hblock : (c.take (fragmentOffset c.frame)
        (c.frame.length - c.paddedLength - fragmentOffset c.frame)).result =
        .ok (c.slice (fragmentOffset c.frame)
          (c.frame.length - c.paddedLength - fragmentOffset c.frame)) := by
      rw [← take_result_nat]
      congr 2
      omega
    rw [if_neg hlen, hblock, ok_bind]
    split_ifs <;> rfl

theorem notedHeadersFrame_result :
    (c.notedHeadersFrame env).result = c.handleHeadersFrame env := by
  unfold notedHeadersFrame handleHeadersFrame
  dsimp only
  cases c.streams.find? c.frame.ident with
  | none =>
    split_ifs
    all_goals first | rfl | exact notedFragment_result
  | some s =>
    dsimp only
    split_ifs
    all_goals first | rfl | exact notedFragment_result

theorem notedHeld_result {next : HttpStream → Noted HttpConnectionEx}
    {next' : HttpStream → Except Fault HttpConnectionEx}
    (h : ∀ s, c.held id = some s → (next s).result = next' s) :
    (c.notedHeld id next).result = c.withHeld id next' := by
  unfold notedHeld withHeld
  cases hheld : c.held id with
  | none => rfl
  | some s => exact h s hheld

theorem notedBody_result : (c.notedBody env).result = c.dataBody env := by
  refine notedHeld_result fun s _ => ?_
  dsimp only
  by_cases hflag : c.frame.hasFlag frameFlagPadded = true
  · have hpadding : fromBigEndian (c.slice 0 1) = c.paddedLength := by
      rw [paddedLength, if_pos hflag]
    rw [if_pos hflag, if_pos hflag, Noted.bind_result,
      show (c.take 0 1).result = _ from c.take_result_nat 0 1, ok_bind, hpadding]
    by_cases hpad : c.paddedLength > c.frame.length
    · rw [if_pos hpad, if_pos hpad]
      rfl
    rw [if_neg hpad, if_neg hpad]
    by_cases hfilter : s.connType = .filter
    · rw [if_pos hfilter, if_pos hfilter]
      rfl
    rw [if_neg hfilter, if_neg hfilter, Noted.bind_result]
    by_cases hlen : c.frame.length < c.paddedLength + 1
    · rw [if_pos hlen, take_result_of_neg (by omega)]
      rfl
    · have hdata : (c.take 1 (c.frame.length - c.paddedLength - 1)).result =
          .ok (c.slice 1 (c.frame.length - c.paddedLength - 1)) := by
        rw [← take_result_nat]
        congr 2
        omega
      rw [if_neg hlen, hdata]
      rfl
  · rw [if_neg hflag, if_neg hflag]
    by_cases hfilter : s.connType = .filter
    · rw [if_pos hfilter, if_pos hfilter]
      rfl
    · rw [if_neg hfilter, if_neg hfilter, Noted.bind_result, take_result_nat]
      rfl

theorem notedAccept_result : (c.notedAccept env).result = c.dataAccept env := by
  refine notedHeld_result fun s _ => ?_
  split_ifs
  · rfl
  · rw [Noted.bind_result]
    refine congrArg _ (funext fun d => ?_)
    rw [Noted.bind_result]
    exact congrArg _ (funext fun e => notedBody_result)

theorem notedDataFrame_result : (c.notedDataFrame env).result = c.handleDataFrame env := by
  unfold notedDataFrame handleDataFrame
  dsimp only
  cases c.streams.find? c.frame.ident with
  | none => split_ifs <;> rfl
  | some s =>
    dsimp only
    by_cases hend : s.endStream = true
    · rw [if_pos hend, if_pos hend]
      split_ifs
      · rfl
      · rfl
      · rfl
      · rw [Noted.bind_result]
        exact congrArg _ (funext fun d => notedAccept_result)
    · rw [if_neg hend, if_neg hend]
      split_ifs
      · rfl
      · rfl
      · rfl
      · exact notedAccept_result

theorem notedPriority_result : (c.notedPriority s).result = c.notePriority s := by
  unfold notedPriority notePriority
  dsimp only
  generalize c.setStream c.frame.ident { s with continueType := c.frame.type } = d
  have hdependency : (d.take 0 4).result = .ok (d.slice 0 4) := d.take_result_nat 0 4
  have hweight : (d.take 4 1).result = .ok (d.slice 4 1) := d.take_result_nat 4 1
  rw [Noted.bind_result, hdependency, ok_bind, Noted.bind_result, hweight, ok_bind]
  split_ifs <;> rfl

theorem notedPriorityFrame_result : c.notedPriorityFrame.result = c.handlePriorityFrame := by
  unfold notedPriorityFrame handlePriorityFrame
  dsimp only
  cases c.streams.find? c.frame.ident with
  | none =>
    split_ifs
    · rfl
    · rfl
    · exact notedPriority_result
  | some s =>
    dsimp only
    split_ifs
    · rfl
    · rfl
    · exact notedPriority_result

theorem notedPingFrame_result : c.notedPingFrame.result = c.handlePingFrame := by
  unfold notedPingFrame handlePingFrame
  split_ifs
  · rfl
  · rfl
  · rfl
  · rw [Noted.bind_result, show (c.take 0 8).result = _ from c.take_result_nat 0 8, ok_bind]
    rfl

/-- Without the notes it is the handling of the frame. -/
theorem notedFrameHeader_result :
    (c.notedFrameHeader env).result = c.handleFrameHeader env := by
  by_cases hint : c.interrupts = true
  · rw [handleFrameHeader_interrupts hint]
    unfold notedFrameHeader
    rw [if_pos hint]
    rfl
  by_cases hsettings : c.frame.type = frameTypeSettings
  · unfold notedFrameHeader
    rw [if_neg hint, if_pos hsettings]
    rfl
  unfold notedFrameHeader handleFrameHeader
  dsimp only
  rw [if_neg hint, if_neg hint, if_neg hsettings, if_neg hsettings]
  split_ifs
  all_goals first
    | rfl
    | exact notedWindowUpdate_result
    | exact notedGoawayFrame_result
    | exact notedHeadersFrame_result
    | exact notedDataFrame_result
    | exact notedPriorityFrame_result
    | exact notedPingFrame_result

end HttpConnectionEx
end Sese.Service.Http
