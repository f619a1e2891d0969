import Sese.Service.Http.HeaderBlocks
import Sese.Service.Http.NotedFrames

/-!
# The slices of a frame

The slices that the handler of a frame has noted are compared with the length of the
frame. Neither the padding length nor the priority fields are looked for in frames
that are too short for them, and a GOAWAY frame may be shorter than its two integers.
-/
namespace Sese.Service.Http

open Foundation Sese.Net.Http

namespace HttpConnectionEx

variable {env : Env} {c₀ c c' d : HttpConnectionEx} {id : ℕ} {s s' : HttpStream}

/-- The connection and the stream with which `handleHeadersFrame` comes to the payload. -/
def fragmentStart (c : HttpConnectionEx) : Option (HttpConnectionEx × HttpStream) :=
  let ident := c.frame.ident
  if ident = 0 ∨ ident % 2 ≠ 1 ∨ ident ∈ c.closedStreams then none
  else if c.frame.type = frameTypeHeaders then
    match c.streams.find? ident with
    | none =>
      if ident < c.latestStreamIdent ∨ c.streams.size > localMaxConcurrentStreams then none
      else some ({ c.openStream ident with latestStreamIdent := ident },
        { endpointWindowSize := c.endpointInitWindowSize })
    | some s => if s.endHeaders then none else some (c, s)
  else (c.streams.find? ident).map fun s => (c, s)

/-- The padding length, the two priority fields and the header block fragment. -/
def fragmentSlices (c : HttpConnectionEx) : List Slice :=
  let padding := if c.frame.hasFlag frameFlagPadded then 1 else 0
  (if c.frame.hasFlag frameFlagPadded then [⟨0, 1⟩] else []) ++
    (if c.frame.hasFlag frameFlagPriority then [⟨padding, 4⟩, ⟨padding + 4, 1⟩] else []) ++
    if c.dependsOnItself ∨ c.paddedLength > c.frame.length then []
    else [⟨fragmentOffset c.frame, c.frame.length - c.paddedLength - fragmentOffset c.frame⟩]

theorem handleHeadersFrame_eq (h : c.fragmentStart = some (d, s)) :
    c.handleHeadersFrame env = d.headersFragment env s := by
  unfold fragmentStart at h
  unfold handleHeadersFrame
  dsimp only at h ⊢
  by_cases hident : c.frame.ident = 0 ∨ c.frame.ident % 2 ≠ 1 ∨ c.frame.ident ∈ c.closedStreams
  · rw [if_pos hident] at h
    cases h
  rw [if_neg hident] at h
  rw [← or_assoc, not_or] at hident
  rw [if_neg hident.1, if_neg hident.2]
  cases hfind : c.streams.find? c.frame.ident with
  | none =>
    simp only [hfind] at h ⊢
    split_ifs at h with htype hrefuse
    · rw [not_or] at hrefuse
      rw [if_pos htype, if_neg hrefuse.1, if_neg hrefuse.2]
      cases h
      rfl
    · cases h
  | some t =>
    simp only [hfind] at h ⊢
    split_ifs at h with htype hend
    · rw [if_pos htype, if_neg hend]
      cases h
      rfl
    · rw [if_neg htype]
      cases h
      rfl

/-- The slices of the fields before the fragment lie within the frame when the fields
fit into it. -/
theorem fragmentSlices_within :
    (∀ sl ∈ c.fragmentSlices, sl.Within c.frame.length) ↔
      fragmentOffset c.frame ≤ c.frame.length ∧
        (c.dependsOnItself ∨ c.paddedLength > c.frame.length ∨
          c.paddedLength + fragmentOffset c.frame ≤ c.frame.length) := by
  have hlast : (∀ sl ∈ (if c.dependsOnItself ∨ c.paddedLength > c.frame.length then []
      else [(⟨fragmentOffset c.frame, c.frame.length - c.paddedLength - fragmentOffset c.frame⟩ :
        Slice)]), sl.Within c.frame.length) ↔
      (c.dependsOnItself ∨ c.paddedLength > c.frame.length ∨
        c.paddedLength + fragmentOffset c.frame ≤ c.frame.length) := by
    split_ifs with hskip
    · simp only [List.not_mem_nil, false_imp_iff, implies_true, true_iff]
      tauto
    · rw [not_or] at hskip
      simp only [List.mem_singleton, forall_eq, Slice.Within]
      constructor
      · rintro ⟨hlen, -⟩
        exact .inr (.inr (by omega))
      · rintro (h | h | h)
        · exact absurd h hskip.1
        · exact absurd h hskip.2
        · omega
  simp only [fragmentSlices, List.forall_mem_append, hlast]
  refine and_congr_left fun _ => ?_
  simp only [fragmentOffset]
  split_ifs with hpad hprio hprio
  · simp [Slice.Within]
    omega
  · simp [Slice.Within]
  · simp [Slice.Within]
    omega
  · simp

theorem take_bind_slices (c : HttpConnectionEx) (offset n : ℕ) (f : Bytes → Noted HttpConnectionEx) :
    (c.take offset n >>= f).slices = ⟨offset, n⟩ :: (f (c.slice offset n)).slices :=
  Noted.bind_slices_of_ok (c.take_result_nat offset n) f

theorem take_last_slices (c : HttpConnectionEx) (offset : ℕ) (n : ℤ)
    {f : Bytes → Noted HttpConnectionEx} (h : ∀ data, (f data).slices = []) :
    (c.take offset n >>= f).slices = [⟨offset, n⟩] := by
  cases hresult : (c.take offset n).result with
  | error e => exact Noted.bind_slices_of_error hresult f
  | ok data => rw [Noted.bind_slices_of_ok hresult, h, List.append_nil]; rfl

theorem notedPadding_slices :
    c.notedPadding.slices = if c.frame.hasFlag frameFlagPadded then [⟨0, 1⟩] else [] := by
  unfold notedPadding
  split_ifs
  · exact Noted.bind_slices_of_ok (c.take_result_nat 0 1) _
  · rfl

theorem notedPriorityFields_slices (offset : ℕ) : (c.notedPriorityFields offset).slices =
    if c.frame.hasFlag frameFlagPriority then [⟨offset, 4⟩, ⟨offset + 4, 1⟩] else [] := by
  unfold notedPriorityFields
  split_ifs
  · exact (Noted.bind_slices_of_ok (c.take_result_nat offset 4) _).trans
      (congrArg _ (Noted.bind_slices_of_ok (c.take_result_nat (offset + 4) 1) _))
  · rfl

theorem notedFragment_slices : (c.notedFragment env s).slices = c.fragmentSlices := by
  unfold notedFragment fragmentSlices
  dsimp only
  rw [Noted.bind_slices_of_ok notedPadding_result, notedPadding_slices,
    Noted.bind_slices_of_ok notedPriorityFields_result, notedPriorityFields_slices,
    ← List.append_assoc]
  congr 1
  by_cases hself : c.dependsOnItself = true
  · rw [if_pos hself, if_pos (.inl hself)]
    rfl
  by_cases hpad : c.paddedLength > c.frame.length
  · rw [if_neg hself, if_pos hpad, if_pos (.inr hpad)]
    rfl
  · rw [if_neg hself, if_neg hpad, if_neg (by tauto)]
    apply take_last_slices
    intro block
    split_ifs <;> rfl

theorem notedHeadersFrame_slices : (c.notedHeadersFrame env).slices =
    match c.fragmentStart with
    | none => []
    | some (d, _) => d.fragmentSlices := by
  unfold notedHeadersFrame fragmentStart
  dsimp only
  by_cases hident : c.frame.ident = 0 ∨ c.frame.ident % 2 ≠ 1
  · rw [if_pos hident, if_pos (by tauto)]
    rfl
  by_cases hclosed : c.frame.ident ∈ c.closedStreams
  · rw [if_neg hident, if_pos hclosed, if_pos (by tauto)]
    rfl
  have hopen : ¬(c.frame.ident = 0 ∨ c.frame.ident % 2 ≠ 1 ∨ c.frame.ident ∈ c.closedStreams) := by
    tauto
  rw [if_neg hident, if_neg hclosed, if_neg hopen]
  by_cases htype : c.frame.type = frameTypeHeaders
  · rw [if_pos htype, if_pos htype]
    cases c.streams.find? c.frame.ident with
    | none =>
      dsimp only
      by_cases hold : c.frame.ident < c.latestStreamIdent
      · rw [if_pos hold, if_pos (.inl hold)]
        rfl
      by_cases hmany : c.streams.size > localMaxConcurrentStreams
      · rw [if_neg hold, if_pos hmany, if_pos (.inr hmany)]
        rfl
      · rw [if_neg hold, if_neg hmany, if_neg (by tauto)]
        exact notedFragment_slices
    | some s =>
      dsimp only
      by_cases hend : s.endHeaders = true
      · rw [if_pos hend, if_pos hend]
        rfl
      · rw [if_neg hend, if_neg hend]
        exact notedFragment_slices
  · rw [if_neg htype, if_neg htype]
    cases c.streams.find? c.frame.ident with
    | none => rfl
    | some s => exact notedFragment_slices

/-- The connection after the flow control part of `handleDataFrame`. -/
def flowChecked (c : HttpConnectionEx) : Option HttpConnectionEx :=
  match c.held c.frame.ident with
  | none => none
  | some s =>
    if c.frame.length > c.windowSize ∨ c.frame.length > s.windowSize then none
    else ((c.acceptData c.frame s).replenish >>= replenishStream).toOption

/-- The connection with which `handleDataFrame` comes to the payload. -/
def bodyStart (c : HttpConnectionEx) : Option HttpConnectionEx :=
  let ident := c.frame.ident
  if c.expectAck ∨ ident = 0 ∨ ident % 2 ≠ 1 ∨ ident ∈ c.closedStreams then none
  else
    match c.streams.find? ident with
    | none => none
    | some s =>
      if s.endStream then (c.writeGoawayFrame ident goawayProtocolError).toOption.bind flowChecked
      else c.flowChecked

/-- The payload is dropped because a filter has refused the request. -/
def dropsBody (c : HttpConnectionEx) : Bool :=
  (c.held c.frame.ident).any fun s => s.connType = .filter

/-- The padding length and the data. -/
def bodySlices (c : HttpConnectionEx) : List Slice :=
  if c.frame.hasFlag frameFlagPadded then
    ⟨0, 1⟩ :: if c.paddedLength > c.frame.length ∨ c.dropsBody then []
      else [⟨1, c.frame.length - c.paddedLength - 1⟩]
  else if c.dropsBody then [] else [⟨0, c.frame.length⟩]

theorem toOption_eq_some {x : Except Fault HttpConnectionEx} :
    x.toOption = some d ↔ x = .ok d := by
  cases x with
  | error e => simp [Except.toOption]
  | ok a => simp [Except.toOption]

/-- The frame and the buffer are the same when the payload is taken. -/
structure SamePayload (c d : HttpConnectionEx) : Prop where
  frame : d.frame = c.frame
  tempBuffer : d.tempBuffer = c.tempBuffer

theorem SamePayload.paddedLength (h : SamePayload c d) : d.paddedLength = c.paddedLength := by
  unfold HttpConnectionEx.paddedLength slice
  rw [h.frame, h.tempBuffer]

theorem SamePayload.trans (h : SamePayload c d) (h' : SamePayload d c') : SamePayload c c' :=
  ⟨h'.frame.trans h.frame, h'.tempBuffer.trans h.tempBuffer⟩

theorem SamePayload.replenish (h : c.replenish = .ok d) : SamePayload c d := by
  unfold HttpConnectionEx.replenish at h
  split_ifs at h
  · obtain ⟨d', hpush, h⟩ := bind_eq_ok.mp h
    cases h
    have hk := pushed_kept hpush
    exact ⟨hk.frame, hk.tempBuffer⟩
  · cases h
    exact ⟨rfl, rfl⟩

theorem SamePayload.replenishStream (h : c.replenishStream = .ok d) : SamePayload c d := by
  unfold HttpConnectionEx.replenishStream at h
  obtain ⟨s, -, h⟩ := withHeld_eq_ok h
  split_ifs at h
  · obtain ⟨d', hpush, h⟩ := bind_eq_ok.mp h
    obtain ⟨s', -, h⟩ := withHeld_eq_ok h
    cases h
    have hk := pushed_kept hpush
    exact ⟨setHeld_frame.trans hk.frame, setHeld_tempBuffer.trans hk.tempBuffer⟩
  · cases h
    exact ⟨rfl, rfl⟩

theorem SamePayload.flowChecked (h : c.flowChecked = some d) : SamePayload c d := by
  unfold HttpConnectionEx.flowChecked at h
  split at h
  · cases h
  · rename_i s hheld
    split_ifs at h
    rw [toOption_eq_some] at h
    obtain ⟨d', hfirst, hsecond⟩ := bind_eq_ok.mp h
    have haccept : SamePayload c (c.acceptData c.frame s) := ⟨setHeld_frame, setHeld_tempBuffer⟩
    exact (haccept.trans (.replenish hfirst)).trans (.replenishStream hsecond)

theorem SamePayload.bodyStart (h : c.bodyStart = some d) : SamePayload c d := by
  unfold HttpConnectionEx.bodyStart at h
  dsimp only at h
  split_ifs at h
  split at h
  · cases h
  · split_ifs at h
    · obtain ⟨d', hgoaway, h⟩ := Option.bind_eq_some_iff.mp h
      rw [toOption_eq_some] at hgoaway
      have hk := goaway_kept hgoaway
      have hsame : SamePayload c d' := ⟨hk.frame, hk.tempBuffer⟩
      exact hsame.trans (.flowChecked h)
    · exact .flowChecked h

theorem bodySlices_within :
    (∀ sl ∈ c.bodySlices, sl.Within c.frame.length) ↔
      (c.frame.hasFlag frameFlagPadded → 1 ≤ c.frame.length ∧
        (c.dropsBody ∨ c.paddedLength > c.frame.length ∨ c.paddedLength + 1 ≤ c.frame.length)) := by
  unfold bodySlices
  split_ifs with hpad hskip hdrop
  · simp only [hpad, true_imp_iff, List.mem_singleton, forall_eq, Slice.Within]
    constructor
    · rintro ⟨-, hlen⟩
      exact ⟨by simpa using hlen, by tauto⟩
    · rintro ⟨hlen, -⟩
      exact ⟨by decide, by simpa using hlen⟩
  · rw [not_or] at hskip
    simp only [hpad, true_imp_iff, List.forall_mem_cons, Slice.Within, List.not_mem_nil,
      false_imp_iff, implies_true, and_true]
    constructor
    · rintro ⟨⟨-, hlen⟩, hdata, -⟩
      exact ⟨by simpa using hlen, .inr (.inr (by omega))⟩
    · rintro ⟨hlen, h | h | h⟩
      · exact absurd h hskip.2
      · exact absurd h hskip.1
      · omega
  · simp [hpad]
  · simp [hpad, Slice.Within]

theorem notedBody_slices (hheld : c.held c.frame.ident = some s) :
    (c.notedBody env).slices = c.bodySlices := by
  have hdrops : c.dropsBody = decide (s.connType = .filter) := by simp [dropsBody, hheld]
  unfold notedBody notedHeld bodySlices
  dsimp only
  simp only [hheld]
  by_cases hflag : c.frame.hasFlag frameFlagPadded = true
  · have hpadding : fromBigEndian (c.slice 0 1) = c.paddedLength := by
      rw [paddedLength, if_pos hflag]
    rw [if_pos hflag, if_pos hflag]
    refine (take_bind_slices c 0 1 _).trans (congrArg _ ?_)
    rw [hpadding]
    by_cases hpad : c.paddedLength > c.frame.length
    · rw [if_pos hpad, if_pos (.inl hpad)]
      rfl
    by_cases hfilter : s.connType = .filter
    · rw [if_neg hpad, if_pos hfilter, if_pos (.inr (by simp [hdrops, hfilter]))]
      rfl
    · rw [if_neg hpad, if_neg hfilter, if_neg (by simp [hdrops, hfilter, hpad])]
      exact take_last_slices c _ _ fun _ => rfl
  · rw [if_neg hflag, if_neg hflag]
    by_cases hfilter : s.connType = .filter
    · rw [if_pos hfilter, if_pos (by simp [hdrops, hfilter])]
      rfl
    · rw [if_neg hfilter, if_neg (by simp [hdrops, hfilter])]
      exact take_last_slices c _ _ fun _ => rfl

/-- The slices along the path that the handler of the frame follows. -/
def pathSlices (c : HttpConnectionEx) : List Slice :=
  let f := c.frame
  if c.interrupts then []
  else if f.type = frameTypeWindowUpdate then if f.length ≠ 4 then [] else [⟨0, 4⟩]
  else if f.type = frameTypeGoaway then
    if f.ident ≠ 0 then []
    else [⟨0, 4⟩, ⟨4, 4⟩] ++ if f.length = 8 then [] else [⟨8, f.length - 8⟩]
  else if f.type = frameTypeContinuation ∧ (f.ident = 0 ∨ !c.continues) then []
  else if isHeaders f then
    match c.fragmentStart with
    | none => []
    | some (d, _) => d.fragmentSlices
  else if f.type = frameTypeData then
    match c.bodyStart with
    | none => []
    | some d => d.bodySlices
  else if f.type = frameTypePriority then
    if f.ident = 0 ∨ f.ident % 2 ≠ 1 ∨ f.length ≠ 5 then [] else [⟨0, 4⟩, ⟨4, 1⟩]
  else if f.type = frameTypePing then
    if f.ident ≠ 0 ∨ f.length ≠ 8 ∨ f.hasFlag settingsFlagsAck then [] else [⟨0, 8⟩]
  else []

/-- The frame opens or continues a header block and comes to its payload. -/
def takesFragment (c : HttpConnectionEx) : Bool :=
  isHeaders c.frame && (c.frame.type ≠ frameTypeContinuation || c.continues) &&
    c.fragmentStart.isSome

/-- The frame is long enough for the fields that its handler takes from it. -/
structure FieldsFit (c : HttpConnectionEx) : Prop where
  goaway : c.frame.type = frameTypeGoaway → c.frame.ident = 0 → 8 ≤ c.frame.length
  headers : c.takesFragment → fragmentOffset c.frame ≤ c.frame.length ∧
    (c.dependsOnItself ∨ c.paddedLength > c.frame.length ∨
      c.paddedLength + fragmentOffset c.frame ≤ c.frame.length)
  data : c.frame.type = frameTypeData → ∀ d ∈ c.bodyStart, c.frame.hasFlag frameFlagPadded →
    1 ≤ c.frame.length ∧
      (d.dropsBody ∨ c.paddedLength > c.frame.length ∨ c.paddedLength + 1 ≤ c.frame.length)

/-- The payload goes to a stream that is there already, or to a new one. -/
theorem fragmentStart_cases (h : c.fragmentStart = some (d, s)) :
    d = c ∧ c.streams.find? c.frame.ident = some s ∨
      d = { c.openStream c.frame.ident with latestStreamIdent := c.frame.ident } ∧
        s = { endpointWindowSize := c.endpointInitWindowSize } := by
  unfold fragmentStart at h
  dsimp only at h
  cases hfind : c.streams.find? c.frame.ident with
  | none =>
    simp only [hfind] at h
    split_ifs at h
    · cases h
      exact .inr ⟨rfl, rfl⟩
    · cases h
  | some t =>
    simp only [hfind] at h
    split_ifs at h
    · cases h
      exact .inl ⟨rfl, rfl⟩
    · cases h
      exact .inl ⟨rfl, rfl⟩

theorem fragmentStart_same (h : c.fragmentStart = some (d, s)) : SamePayload c d := by
  rcases fragmentStart_cases h with ⟨rfl, -⟩ | ⟨rfl, -⟩
  · exact ⟨rfl, rfl⟩
  · exact ⟨rfl, rfl⟩

theorem SamePayload.dependsOnItself (h : SamePayload c d) :
    d.dependsOnItself = c.dependsOnItself := by
  unfold HttpConnectionEx.dependsOnItself slice
  rw [h.frame, h.tempBuffer]

/-- The fields fit into a frame that is neither GOAWAY nor carries a payload to a
stream. -/
theorem FieldsFit.other (hgoaway : c.frame.type ≠ frameTypeGoaway)
    (hheaders : c.takesFragment = false) (hdata : c.frame.type ≠ frameTypeData) : c.FieldsFit where
  goaway h := absurd h hgoaway
  headers h := by simp [hheaders] at h
  data h := absurd h hdata

theorem takesFragment_eq_false (h : isHeaders c.frame = false) : c.takesFragment = false := by
  simp [takesFragment, h]

theorem handleHeadersFrame_isGoaway_of_none (h : c.fragmentStart = none) :
    c.IsGoaway (c.handleHeadersFrame env) := by
  unfold fragmentStart at h
  unfold handleHeadersFrame
  dsimp only at h ⊢
  by_cases hident : c.frame.ident = 0 ∨ c.frame.ident % 2 ≠ 1
  · rw [if_pos hident]
    apply writeGoawayFrame_isGoaway
  by_cases hclosed : c.frame.ident ∈ c.closedStreams
  · rw [if_neg hident, if_pos hclosed]
    apply writeGoawayFrame_isGoaway
  rw [if_neg (by tauto)] at h
  rw [if_neg hident, if_neg hclosed]
  cases hfind : c.streams.find? c.frame.ident with
  | none =>
    simp only [hfind] at h ⊢
    by_cases htype : c.frame.type = frameTypeHeaders
    · rw [if_pos htype] at h ⊢
      by_cases hold : c.frame.ident < c.latestStreamIdent
      · rw [if_pos hold]
        apply writeGoawayFrame_isGoaway
      by_cases hmany : c.streams.size > localMaxConcurrentStreams
      · rw [if_neg hold, if_pos hmany]
        apply writeGoawayFrame_isGoaway
      · rw [if_neg (by tauto)] at h
        cases h
    · rw [if_neg htype]
      apply writeGoawayFrame_isGoaway
  | some s =>
    simp only [hfind] at h ⊢
    by_cases htype : c.frame.type = frameTypeHeaders
    · rw [if_pos htype] at h ⊢
      by_cases hend : s.endHeaders = true
      · rw [if_pos hend]
        apply writeGoawayFrame_isGoaway
      · rw [if_neg hend] at h
        cases h
    · rw [if_neg htype] at h
      cases h

/-- The payload of a header frame is either not looked at, and the frame answered by
GOAWAY, or handled from `fragmentStart` on. -/
theorem handleFrameHeader_headers (hint : c.interrupts = false) (htype : isHeaders c.frame) :
    c.takesFragment = false ∧ c.IsGoaway (c.handleFrameHeader env) ∨
      ∃ d s, c.takesFragment ∧ c.fragmentStart = some (d, s) ∧
        c.handleFrameHeader env = d.headersFragment env s := by
  have hhandler : c.handleFrameHeader env = (if c.frame.type = frameTypeContinuation then
      if c.frame.ident = 0 then c.writeGoawayFrame 0 goawayProtocolError
      else if !c.continues then c.writeGoawayFrame c.frame.ident goawayProtocolError
      else c.handleHeadersFrame env
    else c.handleHeadersFrame env) := by
    have hcases : c.frame.type = frameTypeHeaders ∨ c.frame.type = frameTypeContinuation := by
      simpa [isHeaders] using htype
    unfold handleFrameHeader
    dsimp only
    rw [hint]
    rcases hcases with h | h
    · rw [h]
      rfl
    · rw [h]
      rfl
  rw [hhandler]
  by_cases hrefuse : c.frame.type = frameTypeContinuation ∧ (c.frame.ident = 0 ∨ !c.continues)
  · left
    obtain ⟨hcont, hrefuse⟩ := hrefuse
    rw [if_pos hcont]
    by_cases hident : c.frame.ident = 0
    · rw [if_pos hident]
      refine ⟨?_, writeGoawayFrame_isGoaway ..⟩
      simp [takesFragment, fragmentStart, hident]
    · have hno : c.continues = false := by simpa [hident] using hrefuse
      rw [if_neg hident, if_pos (by simp [hno])]
      refine ⟨?_, writeGoawayFrame_isGoaway ..⟩
      simp [takesFragment, hcont, hno]
  have hcont : c.frame.type ≠ frameTypeContinuation ∨ c.frame.ident ≠ 0 ∧ c.continues = true := by
    by_cases hc : c.frame.type = frameTypeContinuation
    · right
      simpa [hc, not_or] using hrefuse
    · exact .inl hc
  have hsame : (if c.frame.type = frameTypeContinuation then
      if c.frame.ident = 0 then c.writeGoawayFrame 0 goawayProtocolError
      else if !c.continues then c.writeGoawayFrame c.frame.ident goawayProtocolError
      else c.handleHeadersFrame env
    else c.handleHeadersFrame env) = c.handleHeadersFrame env := by
    rcases hcont with hc | ⟨hident, hyes⟩
    · rw [if_neg hc]
    · simp [hident, hyes]
  rw [hsame]
  cases hstart : c.fragmentStart with
  | none =>
    refine .inl ⟨?_, handleHeadersFrame_isGoaway_of_none hstart⟩
    simp [takesFragment, hstart]
  | some p =>
    refine .inr ⟨p.1, p.2, ?_, rfl, handleHeadersFrame_eq hstart⟩
    simp only [takesFragment, htype, hstart, Option.isSome_some, Bool.true_and, Bool.and_true,
      Bool.or_eq_true, decide_eq_true_eq]
    tauto

section Types

variable (hint : ¬ c.interrupts = true)

include hint

theorem goawaySlices_within (htype : c.frame.type = frameTypeGoaway) :
    (∀ sl ∈ c.pathSlices, sl.Within c.frame.length) ↔ c.FieldsFit := by
  have hother : c.frame.type ≠ frameTypeWindowUpdate := by rw [htype]; decide
  have hfit : c.FieldsFit ↔ (c.frame.ident = 0 → 8 ≤ c.frame.length) := by
    constructor
    · intro h
      exact h.goaway htype
    · intro h
      have hheaders : c.takesFragment = false :=
        takesFragment_eq_false (by rw [isHeaders, htype]; decide)
      refine ⟨fun _ => h, by simp [hheaders], ?_⟩
      intro hdata
      rw [htype] at hdata
      cases hdata
  unfold pathSlices
  dsimp only
  rw [hfit, if_neg hint, if_neg hother, if_pos htype]
  split_ifs with hident hlen
  · simp [hident]
  · rw [ne_eq, not_not] at hident
    simp [hident, hlen, Slice.Within]
  · rw [ne_eq, not_not] at hident
    simp [hident, Slice.Within]
    omega

theorem headersSlices_within (htype : isHeaders c.frame) :
    (∀ sl ∈ c.pathSlices, sl.Within c.frame.length) ↔ c.FieldsFit := by
  have hcases : c.frame.type = frameTypeHeaders ∨ c.frame.type = frameTypeContinuation := by
    simpa [isHeaders] using htype
  have hother : c.frame.type ≠ frameTypeWindowUpdate ∧ c.frame.type ≠ frameTypeGoaway ∧
      c.frame.type ≠ frameTypeData := by
    rcases hcases with h | h
    · rw [h]; decide
    · rw [h]; decide
  have hfit : c.FieldsFit ↔ (c.takesFragment → fragmentOffset c.frame ≤ c.frame.length ∧
      (c.dependsOnItself ∨ c.paddedLength > c.frame.length ∨
        c.paddedLength + fragmentOffset c.frame ≤ c.frame.length)) := by
    constructor
    · intro h
      exact h.headers
    · intro h
      exact ⟨fun hg => absurd hg hother.2.1, h, fun hd => absurd hd hother.2.2⟩
  unfold pathSlices
  dsimp only
  rw [hfit, if_neg hint, if_neg hother.1, if_neg hother.2.1]
  by_cases hrefuse : c.frame.type = frameTypeContinuation ∧ (c.frame.ident = 0 ∨ !c.continues)
  · have hnone : c.takesFragment = false := by
      rcases hrefuse.2 with hident | hcont
      · simp [takesFragment, fragmentStart, hident]
      · have hcont : c.continues = false := by simpa using hcont
        simp [takesFragment, hrefuse.1, hcont]
    rw [if_pos hrefuse]
    simp [hnone]
  rw [if_neg hrefuse, if_pos htype]
  have hcont : ¬ c.frame.type = frameTypeContinuation ∨ c.continues = true := by
    by_cases hc : c.frame.type = frameTypeContinuation
    · right
      by_contra hno
      exact hrefuse ⟨hc, .inr (by simpa using hno)⟩
    · exact .inl hc
  cases hstart : c.fragmentStart with
  | none => simp [takesFragment, hstart]
  | some p =>
    obtain ⟨d, s⟩ := p
    have hsame := fragmentStart_same hstart
    have htakes : c.takesFragment = true := by simp [takesFragment, htype, hcont, hstart]
    simp only [htakes, true_imp_iff]
    rw [← hsame.frame, fragmentSlices_within, hsame.dependsOnItself, hsame.paddedLength]

theorem dataSlices_within (htype : c.frame.type = frameTypeData) :
    (∀ sl ∈ c.pathSlices, sl.Within c.frame.length) ↔ c.FieldsFit := by
  have hother : c.frame.type ≠ frameTypeWindowUpdate ∧ c.frame.type ≠ frameTypeGoaway ∧
      c.frame.type ≠ frameTypeContinuation := by rw [htype]; decide
  have hheaders : isHeaders c.frame = false := by rw [isHeaders, htype]; decide
  have hfit : c.FieldsFit ↔ ∀ d ∈ c.bodyStart, c.frame.hasFlag frameFlagPadded →
      1 ≤ c.frame.length ∧ (d.dropsBody ∨ c.paddedLength > c.frame.length ∨
        c.paddedLength + 1 ≤ c.frame.length) := by
    constructor
    · intro h
      exact h.data htype
    · intro h
      refine ⟨fun hg => absurd hg hother.2.1, ?_, fun _ => h⟩
      simp [takesFragment_eq_false hheaders]
  unfold pathSlices
  dsimp only
  rw [hfit, if_neg hint, if_neg hother.1, if_neg hother.2.1, if_neg (by tauto),
    if_neg (by simp [hheaders]), if_pos htype]
  cases hstart : c.bodyStart with
  | none => simp
  | some d =>
    have hsame := SamePayload.bodyStart hstart
    simp only [Option.mem_def, Option.some.injEq, forall_eq']
    rw [← hsame.frame, bodySlices_within, hsame.paddedLength]

theorem fixedSlices_within (hgoaway : c.frame.type ≠ frameTypeGoaway)
    (hheaders : isHeaders c.frame = false) (hdata : c.frame.type ≠ frameTypeData) :
    ∀ sl ∈ c.pathSlices, sl.Within c.frame.length := by
  have hcont : c.frame.type ≠ frameTypeContinuation := by
    intro h
    simp [isHeaders, h] at hheaders
  unfold pathSlices
  dsimp only
  rw [if_neg hint]
  by_cases hupdate : c.frame.type = frameTypeWindowUpdate
  · rw [if_pos hupdate]
    split_ifs with hlen
    · simp
    · rw [ne_eq, not_not] at hlen
      simp [Slice.Within, hlen]
  rw [if_neg hupdate, if_neg hgoaway, if_neg (fun h => hcont h.1), if_neg (by simp [hheaders]),
    if_neg hdata]
  split_ifs with hpriority hfive hping height
  · simp
  · simp only [not_or, ne_eq, not_not] at hfive
    simp [Slice.Within, hfive.2.2]
  · simp
  · simp only [not_or, ne_eq, not_not] at height
    simp [Slice.Within, height.2.1]
  · simp

end Types

theorem replenishStream_held (h : c.replenishStream = .ok d) :
    ∃ s, d.held c.frame.ident = some s := by
  unfold replenishStream at h
  obtain ⟨s, hheld, h⟩ := withHeld_eq_ok h
  split_ifs at h
  · obtain ⟨d', -, h⟩ := bind_eq_ok.mp h
    obtain ⟨s', -, h⟩ := withHeld_eq_ok h
    cases h
    exact ⟨_, held_setHeld⟩
  · cases h
    exact ⟨s, hheld⟩

theorem flowChecked_held (h : c.flowChecked = some d) : ∃ s, d.held c.frame.ident = some s := by
  unfold flowChecked at h
  split at h
  · cases h
  · split_ifs at h
    rw [toOption_eq_some] at h
    obtain ⟨d', hfirst, hsecond⟩ := bind_eq_ok.mp h
    have hframe : d'.frame = c.frame := (SamePayload.replenish hfirst).frame.trans setHeld_frame
    rw [← hframe]
    exact replenishStream_held hsecond

theorem notedAccept_slices : (c.notedAccept env).slices =
    match c.flowChecked with
    | none => []
    | some d => d.bodySlices := by
  have hflow := @flowChecked_held c
  unfold notedAccept notedHeld
  unfold flowChecked at hflow ⊢
  dsimp only
  cases hheld : c.held c.frame.ident with
  | none => rfl
  | some s =>
    simp only [hheld] at hflow ⊢
    by_cases hwindow : c.frame.length > c.windowSize ∨ c.frame.length > s.windowSize
    · rw [if_pos hwindow, if_pos hwindow]
      rfl
    rw [if_neg hwindow] at hflow ⊢
    rw [if_neg hwindow]
    cases hfirst : (c.acceptData c.frame s).replenish with
    | error e =>
      rw [Noted.error_bind_slices]
      rfl
    | ok d =>
      rw [Noted.ok_bind_slices, ok_bind]
      cases hsecond : d.replenishStream with
      | error e =>
        rw [Noted.error_bind_slices]
        rfl
      | ok d' =>
        rw [Noted.ok_bind_slices]
        rw [hfirst, ok_bind, hsecond] at hflow
        obtain ⟨r, hr⟩ := hflow rfl
        have hframe : d'.frame = c.frame := by
          rw [(SamePayload.replenishStream hsecond).frame, (SamePayload.replenish hfirst).frame]
          exact setHeld_frame
        rw [← hframe] at hr
        exact notedBody_slices hr

theorem notedDataFrame_slices : (c.notedDataFrame env).slices =
    match c.bodyStart with
    | none => []
    | some d => d.bodySlices := by
  unfold notedDataFrame bodyStart
  dsimp only
  by_cases hrefuse : c.expectAck ∨ c.frame.ident = 0 ∨ c.frame.ident % 2 ≠ 1 ∨
      c.frame.ident ∈ c.closedStreams
  · rw [if_pos hrefuse]
    split_ifs
    · rfl
    · rfl
    · rfl
    · tauto
  rw [if_neg hrefuse]
  rw [not_or, ← or_assoc, not_or] at hrefuse
  rw [if_neg hrefuse.1, if_neg hrefuse.2.1, if_neg hrefuse.2.2]
  cases c.streams.find? c.frame.ident with
  | none => rfl
  | some s =>
    dsimp only
    by_cases hend : s.endStream = true
    · rw [if_pos hend, if_pos hend]
      cases hgoaway : c.writeGoawayFrame c.frame.ident goawayProtocolError with
      | error e =>
        rw [Noted.error_bind_slices]
        rfl
      | ok d =>
        rw [Noted.ok_bind_slices]
        exact notedAccept_slices
    · rw [if_neg hend, if_neg hend]
      exact notedAccept_slices

theorem notedMessage_slices : c.notedMessage.slices =
    if c.frame.length = 8 then [] else [⟨8, c.frame.length - 8⟩] := by
  unfold notedMessage
  split_ifs
  · rfl
  · apply take_last_slices
    intro msg
    split_ifs <;> rfl

theorem notedGoawayFrame_slices : c.notedGoawayFrame.slices =
    if c.frame.ident ≠ 0 then []
    else [⟨0, 4⟩, ⟨4, 4⟩] ++ if c.frame.length = 8 then [] else [⟨8, c.frame.length - 8⟩] := by
  have htail : ∀ d : HttpConnectionEx, d.frame = c.frame →
      (d.take 0 4 >>= fun _ => d.take 4 4 >>= fun _ => d.notedMessage).slices =
        [⟨0, 4⟩, ⟨4, 4⟩] ++ if c.frame.length = 8 then [] else [⟨8, c.frame.length - 8⟩] := by
    intro d hframe
    rw [← hframe, ← notedMessage_slices]
    exact (take_bind_slices d 0 4 _).trans (congrArg _ (take_bind_slices d 4 4 _))
  unfold notedGoawayFrame
  by_cases hident : c.frame.ident ≠ 0
  · rw [if_pos hident, if_pos hident]
    rfl
  rw [if_neg hident, if_neg hident]
  cases c.streams.find? c.frame.ident with
  | none => exact htail _ rfl
  | some s => exact htail _ rfl

theorem notedWindowUpdate_slices :
    c.notedWindowUpdate.slices = if c.frame.length ≠ 4 then [] else [⟨0, 4⟩] := by
  unfold notedWindowUpdate
  dsimp only
  by_cases hlen : c.frame.length ≠ 4
  · rw [if_pos hlen, if_pos hlen]
    rfl
  rw [if_neg hlen, if_neg hlen]
  apply take_last_slices c 0 4
  intro data
  split_ifs
  · rfl
  · rfl
  · rfl
  · cases c.streams.find? c.frame.ident with
    | none => rfl
    | some s =>
      dsimp only
      split_ifs <;> rfl

theorem notedPriorityFrame_slices : c.notedPriorityFrame.slices =
    if c.frame.ident = 0 ∨ c.frame.ident % 2 ≠ 1 ∨ c.frame.length ≠ 5 then []
    else [⟨0, 4⟩, ⟨4, 1⟩] := by
  have htaken : ∀ (d : HttpConnectionEx) s, (d.notedPriority s).slices = [⟨0, 4⟩, ⟨4, 1⟩] := by
    intro d s
    unfold notedPriority
    dsimp only
    generalize d.setStream d.frame.ident { s with continueType := d.frame.type } = d'
    refine (take_bind_slices d' 0 4 _).trans (congrArg _ (take_last_slices d' 4 1 fun _ => ?_))
    split_ifs <;> rfl
  unfold notedPriorityFrame
  dsimp only
  by_cases hident : c.frame.ident = 0 ∨ c.frame.ident % 2 ≠ 1
  · rw [if_pos hident, if_pos (by tauto)]
    rfl
  by_cases hlen : c.frame.length ≠ 5
  · rw [if_neg hident, if_pos hlen, if_pos (by tauto)]
    rfl
  have htakes : ¬(c.frame.ident = 0 ∨ c.frame.ident % 2 ≠ 1 ∨ c.frame.length ≠ 5) := by tauto
  rw [if_neg hident, if_neg hlen, if_neg htakes]
  cases c.streams.find? c.frame.ident with
  | none => exact htaken _ _
  | some s => exact htaken _ _

theorem notedPingFrame_slices : c.notedPingFrame.slices =
    if c.frame.ident ≠ 0 ∨ c.frame.length ≠ 8 ∨ c.frame.hasFlag settingsFlagsAck then []
    else [⟨0, 8⟩] := by
  unfold notedPingFrame
  by_cases hident : c.frame.ident ≠ 0
  · rw [if_pos hident, if_pos (.inl hident)]
    rfl
  by_cases hlen : c.frame.length ≠ 8
  · rw [if_neg hident, if_pos hlen, if_pos (.inr (.inl hlen))]
    rfl
  by_cases hack : c.frame.hasFlag settingsFlagsAck = true
  · rw [if_neg hident, if_neg hlen, if_pos hack, if_pos (.inr (.inr hack))]
    rfl
  · rw [if_neg hident, if_neg hlen, if_neg hack, if_neg (by tauto)]
    exact take_last_slices c 0 8 fun _ => rfl

/-- The slices that the handling of the frame takes from the buffer. -/
def frameSlices (env : Env) (c : HttpConnectionEx) : List Slice := (c.notedFrameHeader env).slices

/-- The notes of the handlers are the slices along their path. -/
theorem frameSlices_eq (env : Env) (c : HttpConnectionEx) : c.frameSlices env = c.pathSlices := by
  unfold frameSlices notedFrameHeader pathSlices
  dsimp only
  by_cases hint : c.interrupts = true
  · rw [if_pos hint, if_pos hint]
    rfl
  rw [if_neg hint, if_neg hint]
  by_cases hsettings : c.frame.type = frameTypeSettings
  · simp [hsettings, isHeaders, frameTypeSettings, frameTypeWindowUpdate, frameTypeGoaway,
      frameTypeContinuation, frameTypeHeaders, frameTypeData, frameTypePriority, frameTypePing]
  rw [if_neg hsettings]
  by_cases hupdate : c.frame.type = frameTypeWindowUpdate
  · rw [if_pos hupdate, if_pos hupdate]
    exact notedWindowUpdate_slices
  rw [if_neg hupdate, if_neg hupdate]
  by_cases hgoaway : c.frame.type = frameTypeGoaway
  · rw [if_pos hgoaway, if_pos hgoaway]
    exact notedGoawayFrame_slices
  rw [if_neg hgoaway, if_neg hgoaway]
  by_cases hcontinuation : c.frame.type = frameTypeContinuation
  · have hheaders : isHeaders c.frame = true := by simp [isHeaders, hcontinuation]
    rw [if_pos hcontinuation]
    by_cases hrefuse : c.frame.type = frameTypeContinuation ∧ (c.frame.ident = 0 ∨ !c.continues)
    · rw [if_pos hrefuse]
      split_ifs
      · rfl
      · rfl
      · tauto
    · have hident : c.frame.ident ≠ 0 := fun h => hrefuse ⟨hcontinuation, .inl h⟩
      have hcontinues : ¬(!c.continues) = true := fun h => hrefuse ⟨hcontinuation, .inr h⟩
      rw [if_neg hrefuse, if_pos hheaders, if_neg hident, if_neg hcontinues]
      exact notedHeadersFrame_slices
  have hother : ¬(c.frame.type = frameTypeContinuation ∧ (c.frame.ident = 0 ∨ !c.continues)) :=
    fun h => hcontinuation h.1
  rw [if_neg hcontinuation, if_neg hother]
  by_cases hheaders : c.frame.type = frameTypeHeaders
  · have hfragment : isHeaders c.frame = true := by simp [isHeaders, hheaders]
    rw [if_pos hheaders, if_pos hfragment]
    exact notedHeadersFrame_slices
  have hfragment : ¬isHeaders c.frame = true := by simp [isHeaders, hheaders, hcontinuation]
  rw [if_neg hheaders, if_neg hfragment]
  by_cases hdata : c.frame.type = frameTypeData
  · rw [if_pos hdata, if_pos hdata]
    exact notedDataFrame_slices
  rw [if_neg hdata, if_neg hdata]
  by_cases hpriority : c.frame.type = frameTypePriority
  · rw [if_pos hpriority, if_pos hpriority]
    exact notedPriorityFrame_slices
  rw [if_neg hpriority, if_neg hpriority]
  by_cases hreset : c.frame.type = frameTypeRstStream
  · rw [if_pos hreset, if_neg (by rw [hreset]; decide)]
    rfl
  rw [if_neg hreset]
  by_cases hping : c.frame.type = frameTypePing
  · rw [if_pos hping, if_pos hping]
    exact notedPingFrame_slices
  · rw [if_neg hping, if_neg hping]
    rfl

/-- The slices that the handling of a frame takes lie within the frame, and no length
wraps around, if and only if the frame is long enough for its fields, or is refused
because it breaks into a header block. The slices are those of the handler, which is
`handleFrameHeader` when they are not noted. -/
theorem slices_within_iff_fieldsFit (env : Env) (c : HttpConnectionEx) :
    (c.notedFrameHeader env).result = c.handleFrameHeader env ∧
      ((∀ sl ∈ c.frameSlices env, sl.Within c.frame.length) ↔ c.interrupts ∨ c.FieldsFit) := by
  refine ⟨notedFrameHeader_result, ?_⟩
  rw [frameSlices_eq]
  by_cases hint : c.interrupts = true
  · simp [pathSlices, hint]
  rw [or_iff_right hint]
  by_cases hgoaway : c.frame.type = frameTypeGoaway
  · exact goawaySlices_within hint hgoaway
  by_cases hdata : c.frame.type = frameTypeData
  · exact dataSlices_within hint hdata
  cases hheaders : isHeaders c.frame with
  | true => exact headersSlices_within hint hheaders
  | false =>
    exact iff_of_true (fixedSlices_within hint hgoaway hheaders hdata)
      (.other hgoaway (takesFragment_eq_false hheaders) hdata)

/-- The header of a HEADERS frame on stream 1 that has the flag PADDED and no payload. -/
def paddedHeader : List (Env × Event) :=
  greeting (servletService []) ++ [(servletService [], .read 0 [0, 0, 0, 1, 8, 0, 0, 0, 1])]

/-- The padding length is taken from behind the frame, and the length of the fragment
wraps around. -/
theorem paddedRun_slices_outside : ∃ c c₀, RunWhere step Unrestricted start paddedHeader c ∧
    c.delivered (.read 0 []) = some c₀ ∧
    c₀.frameSlices (servletService []) = [⟨0, 1⟩, ⟨1, -1⟩] ∧
    ¬ ∀ sl ∈ c₀.frameSlices (servletService []), sl.Within c₀.frame.length := by
  obtain ⟨c, hrun, hc⟩ := exists_run_of_any step Unrestricted start paddedHeader
    (fun c => (c.delivered (.read 0 [])).any fun c₀ : HttpConnectionEx =>
      decide (c₀.frameSlices (servletService []) = [⟨0, 1⟩, ⟨1, -1⟩])) (by decide +kernel)
  simp only [Option.any_eq_true, decide_eq_true_eq] at hc
  obtain ⟨c₀, hdel, hslices⟩ := hc
  refine ⟨c, c₀, hrun, hdel, hslices, fun h => ?_⟩
  have hlength := (h ⟨1, -1⟩ (by simp [hslices])).1
  exact absurd hlength (by decide)

end HttpConnectionEx
end Sese.Service.Http
