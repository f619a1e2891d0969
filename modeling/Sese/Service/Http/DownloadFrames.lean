import Sese.Service.Http.BodyFrames
import Sese.Service.Http.DownloadBody

/-!
# The DATA frames of a download

What is left of a download is the rest of the current range, where the file stands, and all that
comes behind it, where the iterator stands. A turn takes the front of it; in the middle of one of
several ranges, however, the frame that is sent is empty.
-/
namespace Sese.Service.Http

open Foundation Sese.Net.Http

namespace HttpConnectionEx

variable {c c' c₀ : HttpConnectionEx} {id : ℕ} {s s' : HttpStream} {stream : Option HttpStream}
  {w : Written} {data body rest contentType : Bytes} {ranges : List Range} {range : Range}
  {fs rs : List Http2Frame} {f : Http2Frame} {t : List Obs}

/-- What comes behind the current range when the iterator is at `i`. -/
def behind (contentType data : Bytes) (ranges : List Range) (i : ℕ) : Bytes :=
  if ranges.length = 1 then (ranges.drop i).flatMap (rangeOctets data)
  else (if i = 0 then [] else crlf) ++
    ((ranges.drop i).flatMap fun range => bodyPart contentType data range ++ crlf) ++ closeDelimiter

theorem behind_zero (contentType data : Bytes) (ranges : List Range) :
    behind contentType data ranges 0 = downloadBody contentType data ranges := by
  match ranges with
  | [] => rfl
  | [range] => simp [behind, downloadBody]
  | _ :: _ :: _ => simp [behind, downloadBody, multipart]

theorem behind_single (contentType data : Bytes) (range : Range) :
    behind contentType data [range] 1 = [] := by
  simp [behind]

theorem behind_cons {i : ℕ} (hmany : ranges.length ≠ 1) (hrange : ranges[i]? = some range) :
    behind contentType data ranges i = (if i = 0 then [] else crlf) ++
      (bodyPart contentType data range ++ behind contentType data ranges (i + 1)) := by
  obtain ⟨hlt, hget⟩ := List.getElem?_eq_some_iff.mp hrange
  unfold behind
  rw [if_neg hmany, if_neg hmany, List.drop_eq_getElem_cons hlt, hget, List.flatMap_cons,
    if_neg (Nat.succ_ne_zero _)]
  simp only [List.append_assoc]

theorem behind_next (hmany : s.ranges.length ≠ 1) (hrange : s.ranges[s.rangeIterator]? = some range)
    (hsize : s.filesize = data.length) :
    behind s.contentType data s.ranges s.rangeIterator =
      subheader s range ++ (rangeOctets data range ++
        behind s.contentType data s.ranges (s.rangeIterator + 1)) := by
  have hempty : bytes "\r\n\r\n" = crlf ++ crlf := by decide
  have hcrlf : bytes "\r\n" = crlf := rfl
  rw [behind_cons hmany hrange]
  simp only [bodyPart, subheader, hempty, hcrlf, hsize, List.append_assoc]

theorem behind_end (hmany : ranges.length ≠ 1) (hne : ranges ≠ []) :
    behind contentType data ranges ranges.length = endBoundary := by
  have hpos : ranges.length ≠ 0 := by simpa using hne
  have hends : bytes "\r\n--" ++ httpdBoundary ++ bytes "--\r\n" = crlf ++ closeDelimiter := by decide
  unfold behind endBoundary
  rw [if_neg hmany, if_neg hpos, List.drop_length, List.flatMap_nil, List.append_nil, hends]

theorem behind_ne_nil (hmany : ranges.length ≠ 1) (i : ℕ) :
    behind contentType data ranges i ≠ [] := by
  have hclose : closeDelimiter ≠ [] := by decide
  unfold behind
  rw [if_neg hmany]
  simp [hclose]

/-- A stream that sends ranges of a file with these octets. -/
structure Downloads (data : Bytes) (s : HttpStream) : Prop where
  doResponse : s.doResponse = true
  connType : s.connType = .fileDownload
  size : s.filesize = data.length
  ranges : s.ranges ≠ []
  holds : ∀ range ∈ s.ranges, HoldsRange data range

/-- The file stands where these octets of the current range are still to be read. -/
def StandsAt (data current : Bytes) (s : HttpStream) : Prop :=
  ∃ pos, s.file = some ⟨data, pos⟩ ∧ s.expectLength - s.realLength ≤ data.length - pos ∧
    current = (data.drop pos).take (s.expectLength - s.realLength)

/-- A download of which this is left. -/
structure Remains (data rest : Bytes) (s : HttpStream) : Prop extends Downloads data s where
  iterator : s.rangeIterator ≤ s.ranges.length
  single : s.ranges.length = 1 → s.rangeIterator = 0 ∧ s.expectLength = 0 ∨
    s.rangeIterator = 1 ∧ s.realLength < s.expectLength
  left : ∃ current, StandsAt data current s ∧
    rest = current ++ behind s.contentType data s.ranges s.rangeIterator

theorem StandsAt.length {current : Bytes} (h : StandsAt data current s) :
    current.length = s.expectLength - s.realLength := by
  obtain ⟨pos, -, hfits, rfl⟩ := h
  simp only [List.length_take, List.length_drop]
  omega

theorem StandsAt.read {current content : Bytes} {l : ℕ} (h : StandsAt data current s)
    (hl : l ≤ s.expectLength - s.realLength)
    (hread : readFile { s with realLength := s.realLength + l } l = .ok (content, s')) :
    content.length = l ∧ ∃ pos, s' = { s with
        realLength := s.realLength + l
        file := some ⟨data, pos⟩ } ∧
      ∃ current', StandsAt data current' s' ∧ current = content ++ current' := by
  obtain ⟨pos, hfile, hfits, rfl⟩ := h
  unfold readFile at hread
  simp only [hfile] at hread
  cases hread
  have hlength : ((data.drop pos).take l).length = l := by
    simp only [List.length_take, List.length_drop]
    omega
  have hrest : s.expectLength - s.realLength = l + (s.expectLength - (s.realLength + l)) := by omega
  refine ⟨hlength, pos + l, ?_, (data.drop (pos + l)).take (s.expectLength - (s.realLength + l)),
    ⟨pos + l, ?_, ?_, rfl⟩, ?_⟩
  · simp only [File.read, hlength]
  · simp only [File.read, hlength]
  · dsimp only
    omega
  · simp only [File.read]
    rw [hrest, List.take_add, List.drop_drop]

theorem Downloads.prepareRange (h : Downloads data s) {pos : ℕ} (hfile : s.file = some ⟨data, pos⟩)
    (hrange : s.ranges[s.rangeIterator]? = some range) (hprep : s.prepareRange = .ok s') :
    s' = { s with
        file := some ⟨data, range.start⟩
        expectLength := range.len
        realLength := 0
        rangeIterator := s.rangeIterator + 1 } ∧
      StandsAt data (rangeOctets data range) s' := by
  unfold HttpStream.prepareRange at hprep
  rw [hfile, hrange] at hprep
  cases hprep
  have hholds := h.holds range (List.mem_of_getElem? hrange)
  exact ⟨rfl, range.start, rfl, Nat.le_sub_of_add_le' hholds, rfl⟩

/-- A frame of DATA that takes the front of what is left; END_STREAM comes with the end. -/
structure Sends (data rest : Bytes) (w : Written) (f : Http2Frame) : Prop where
  frame : w.frame = some f
  type : isData f = true
  flag : f.hasFlag frameFlagEndStream = w.done
  last : w.done = true → f.payload = rest
  left : w.done = false → w.stream.tempBuffer = [] ∧
    ∃ rest', rest = f.payload ++ rest' ∧ rest' ≠ [] ∧ Remains data rest' w.stream

theorem hasFlag_endStream (b : Bool) {f : Http2Frame}
    (hflags : f.flags = if b then frameFlagEndStream else 0) :
    f.hasFlag frameFlagEndStream = b := by
  cases b <;> simp [Http2FrameInfo.hasFlag, hflags, frameFlagEndStream]

theorem Remains.prepared (h : Remains data rest s) (hone : s.ranges.length = 1)
    (hprep : prepared s = .ok s') :
    StandsAt data rest s' ∧ ∃ file expect real, s' = { s with
        file := file
        expectLength := expect
        realLength := real
        rangeIterator := 1 } := by
  obtain ⟨range, hranges⟩ := List.length_eq_one_iff.mp hone
  obtain ⟨current, ⟨pos, hfile, hfits, hcurrent⟩, hrest⟩ := h.left
  rw [hranges] at hrest
  unfold HttpConnectionEx.prepared at hprep
  rcases h.single hone with ⟨hfirst, hexpect⟩ | ⟨hsecond, hmore⟩
  · rw [if_pos hexpect] at hprep
    have hget : s.ranges[s.rangeIterator]? = some range := by rw [hranges, hfirst]; rfl
    obtain ⟨rfl, hstands⟩ := h.toDownloads.prepareRange hfile hget hprep
    have hwhole : rest = rangeOctets data range := by
      rw [hrest, hcurrent, hexpect, hfirst]
      simp [behind]
    rw [hwhole]
    exact ⟨hstands, _, _, _, by rw [hfirst]⟩
  · rw [if_neg (by omega)] at hprep
    cases hprep
    rw [hsecond, behind_single, List.append_nil] at hrest
    rw [hrest]
    exact ⟨⟨pos, hfile, hfits, hcurrent⟩, s.file, s.expectLength, s.realLength, by rw [← hsecond]⟩

theorem Remains.single_turn (h : Remains data rest s) (hone : s.ranges.length = 1)
    (hblock : s.tempBuffer = []) (hwrite : c.writeDataFrame4SingleRange id s = .ok w) :
    w = ⟨none, s, false⟩ ∨ ∃ f, Sends data rest w f := by
  unfold writeDataFrame4SingleRange at hwrite
  split_ifs at hwrite with hwindow
  · exact .inl (Except.ok.inj hwrite).symm
  · right
    obtain ⟨s₁, hprep, hwrite⟩ := bind_eq_ok.mp hwrite
    obtain ⟨⟨content, s₂⟩, hread, hwrite⟩ := bind_eq_ok.mp hwrite
    obtain ⟨hstands, file, expect, real, rfl⟩ := h.prepared hone hprep
    obtain ⟨hlength, pos, rfl, rest', hstands', hsplit⟩ := hstands.read (min_le_left _ _) hread
    cases hwrite
    have hleft := hstands'.length
    dsimp only at hleft
    refine ⟨_, rfl, rfl, hasFlag_endStream _ rfl, ?_, ?_⟩
    · intro hdone
      have hempty : rest' = [] := by
        apply List.eq_nil_of_length_eq_zero
        have hend := of_decide_eq_true hdone
        dsimp only at hend
        omega
      rw [payload_of_length hlength.symm, hsplit, hempty, List.append_nil]
    · intro hmore
      have hbefore := of_decide_eq_false hmore
      dsimp only at hbefore
      refine ⟨hblock, rest', ?_, ?_, ?_⟩
      · rw [payload_of_length hlength.symm, hsplit]
      · intro hempty
        rw [hempty, List.length_nil] at hleft
        omega
      · refine ⟨⟨h.doResponse, h.connType, h.size, h.ranges, h.holds⟩, hone.ge, ?_, ?_⟩
        · exact fun _ => .inr ⟨rfl, Nat.not_le.mp hbefore⟩
        · obtain ⟨range, hranges⟩ := List.length_eq_one_iff.mp hone
          refine ⟨rest', hstands', ?_⟩
          dsimp only
          rw [hranges, behind_single, List.append_nil]

theorem Remains.between (h : Remains data rest s) (hdone : s.expectLength ≤ s.realLength) :
    rest = behind s.contentType data s.ranges s.rangeIterator := by
  obtain ⟨current, hstands, hrest⟩ := h.left
  have hempty : current = [] := by
    apply List.eq_nil_of_length_eq_zero
    rw [hstands.length]
    omega
  rw [hrest, hempty, List.nil_append]

theorem Remains.subheader_turn (h : Remains data rest s) (hmany : s.ranges.length ≠ 1)
    (hblock : s.tempBuffer = []) (hdone : s.expectLength ≤ s.realLength)
    (hrange : s.ranges[s.rangeIterator]? = some range) (hprep : s.prepareRange = .ok s') {n : ℕ}
    (hwrite : writeSubheaderAndData id s' (subheader s range) n = .ok w) :
    ∃ f, Sends data rest w f := by
  obtain ⟨current, ⟨pos, hfile, -⟩, -⟩ := h.left
  obtain ⟨rfl, hstands⟩ := h.toDownloads.prepareRange hfile hrange hprep
  unfold writeSubheaderAndData at hwrite
  obtain ⟨⟨content, s₂⟩, hread, hwrite⟩ := bind_eq_ok.mp hwrite
  obtain ⟨hlength, pos', rfl, current', hstands', hsplit⟩ := hstands.read (min_le_left _ _) hread
  cases hwrite
  have hrest := h.between hdone
  rw [behind_next hmany hrange h.size, hsplit] at hrest
  have hnext : behind s.contentType data s.ranges (s.rangeIterator + 1) ≠ [] :=
    behind_ne_nil hmany _
  refine ⟨_, rfl, rfl, hasFlag_endStream false rfl, fun hend => Bool.noConfusion hend, fun _ =>
    ⟨hblock, current' ++ behind s.contentType data s.ranges (s.rangeIterator + 1), ?_, ?_, ?_⟩⟩
  · rw [payload_of_length (by simp [hlength]), hrest]
    simp only [List.append_assoc]
  · simp [hnext]
  · refine ⟨⟨h.doResponse, h.connType, h.size, h.ranges, h.holds⟩, ?_, ?_, current', hstands', rfl⟩
    · exact (List.getElem?_eq_some_iff.mp hrange).1
    · exact fun hone => absurd hone hmany

theorem Remains.ranges_turn (h : Remains data rest s) (hmany : s.ranges.length ≠ 1)
    (hblock : s.tempBuffer = [])
    (hwhole : c.endpointWindowSize ≠ 0 → s.endpointWindowSize ≠ 0 → s.expectLength ≤ s.realLength)
    (hwrite : c.writeDataFrame4Ranges id s = .ok w) :
    w = ⟨none, s, false⟩ ∨ ∃ f, Sends data rest w f := by
  unfold writeDataFrame4Ranges at hwrite
  by_cases hwindow : c.endpointWindowSize = 0 ∨ s.endpointWindowSize = 0
  · rw [if_pos hwindow] at hwrite
    exact .inl (Except.ok.inj hwrite).symm
  rw [if_neg hwindow] at hwrite
  obtain ⟨hopen, hopen'⟩ := not_or.mp hwindow
  have hdone := hwhole hopen hopen'
  rw [if_pos hdone] at hwrite
  cases hrange : s.ranges[s.rangeIterator]? with
  | some range =>
    simp only [hrange] at hwrite
    split_ifs at hwrite
    · exact .inl (Except.ok.inj hwrite).symm
    · obtain ⟨s₁, hprep, hwrite⟩ := bind_eq_ok.mp hwrite
      exact .inr (h.subheader_turn hmany hblock hdone hrange hprep hwrite)
  | none =>
    simp only [hrange] at hwrite
    split_ifs at hwrite
    · exact .inl (Except.ok.inj hwrite).symm
    · cases hwrite
      have hlast : s.rangeIterator = s.ranges.length :=
        le_antisymm h.iterator (List.getElem?_eq_none_iff.mp hrange)
      have hrest := h.between hdone
      rw [hlast, behind_end hmany h.ranges] at hrest
      refine .inr ⟨_, rfl, rfl, hasFlag_endStream true rfl, fun _ => ?_,
        fun hmore => Bool.noConfusion hmore⟩
      rw [payload_of_length rfl, hrest]

/-- If the stream has a turn with open windows, it is not in the middle of one of several ranges. -/
def BetweenRanges (id : ℕ) (c : HttpConnectionEx) : Prop :=
  c.isWrite = false → ∀ s, c.streams.find? id = some s → 1 < s.ranges.length →
    c.endpointWindowSize ≠ 0 → s.endpointWindowSize ≠ 0 → s.expectLength ≤ s.realLength

/-- A turn sends a part of the header block, or nothing, or a DATA frame. -/
theorem Remains.turn (h : Remains data rest s) (hwrite : c.writeStream id s = .ok w)
    (hwhole : 1 < s.ranges.length → c.endpointWindowSize ≠ 0 → s.endpointWindowSize ≠ 0 →
      s.expectLength ≤ s.realLength) :
    s.tempBuffer ≠ [] ∧ w = c.writeHeadersFrame id s false ∨
      s.tempBuffer = [] ∧ (w = ⟨none, s, false⟩ ∨ ∃ f, Sends data rest w f) := by
  unfold writeStream at hwrite
  simp only [h.doResponse, Bool.not_true, Bool.false_eq_true, if_false, if_pos h.connType,
    Bool.not_eq_true', List.isEmpty_eq_false_iff] at hwrite
  split_ifs at hwrite with hblock hone hmany
  · exact .inl ⟨hblock, (Except.ok.inj hwrite).symm⟩
  · exact .inr ⟨not_not.mp hblock, h.single_turn hone (not_not.mp hblock) hwrite⟩
  · exact .inr ⟨not_not.mp hblock, h.ranges_turn hone (not_not.mp hblock) (hwhole hmany) hwrite⟩

theorem Remains.of_reply (h : Remains data rest s) (hreply : reply s' = reply s) :
    Remains data rest s' := by
  have hsame : Remains data rest (reply s) :=
    ⟨⟨h.doResponse, h.connType, h.size, h.ranges, h.holds⟩, h.iterator, h.single, h.left⟩
  rw [← hreply] at hsame
  exact ⟨⟨hsame.doResponse, hsame.connType, hsame.size, hsame.ranges, hsame.holds⟩, hsame.iterator,
    hsame.single, hsame.left⟩

def DataLast (rs : List Http2Frame) : Prop :=
  rs.Pairwise fun f g => isData f = true → isData g = true

theorem DataLast.append (h : DataLast rs) (hf : isData f = true ∨ rs.filter isData = []) :
    DataLast (rs ++ [f]) := by
  apply List.pairwise_append.mpr
  refine ⟨h, List.pairwise_singleton _ _, ?_⟩
  intro g hg f' hf' hdata
  rw [List.mem_singleton.mp hf']
  rcases hf with hf | hnone
  · exact hf
  · rw [List.filter_eq_nil_iff] at hnone
    exact absurd hdata (hnone g hg)

/-- How far a download has come. -/
inductive Downloading (data body : Bytes) : List Http2Frame → Option HttpStream → Prop
  | sending {rs : List Http2Frame} {s : HttpStream} {rest : Bytes} (hleft : Remains data rest s)
      (hdata : Unfinished body rest (rs.filter isData)) (horder : DataLast rs)
      (hblock : s.tempBuffer ≠ [] → rs.filter isData = []) : Downloading data body rs (some s)
  | completed {rs : List Http2Frame} {f : Http2Frame} (htype : isData f = true)
      (hdata : Unfinished body f.payload (rs.filter isData)) (horder : DataLast rs)
      (hflag : f.hasFlag frameFlagEndStream = true) : Downloading data body (rs ++ [f]) none

theorem Downloading.of_reply {stream' : Option HttpStream} (h : Downloading data body rs stream)
    (hreply : stream'.map reply = stream.map reply) : Downloading data body rs stream' := by
  cases h with
  | sending hleft hdata horder hblock =>
    obtain ⟨s', rfl, hs'⟩ := Option.map_eq_some_iff.mp hreply
    have hsame := congrArg HttpStream.tempBuffer hs'
    exact .sending (hleft.of_reply hs') hdata horder fun hne => hblock (hsame.symm.trans_ne hne)
  | completed htype hdata horder hflag =>
    obtain rfl := Option.map_eq_none_iff.mp hreply
    exact .completed htype hdata horder hflag

theorem Downloading.turn (h : Downloading data body rs (some s))
    (hwhole : 1 < s.ranges.length → c.endpointWindowSize ≠ 0 → s.endpointWindowSize ≠ 0 →
      s.expectLength ≤ s.realLength) (hwrite : c.writeStream id s = .ok w) :
    Downloading data body (rs ++ w.frame.toList) (if w.done then none else some w.stream) := by
  cases h with
  | @sending _ _ rest hleft hdata horder hblock =>
    rcases hleft.turn hwrite hwhole with ⟨hne, rfl⟩ | ⟨hempty, rfl | ⟨f, hsends⟩⟩
    · -- a part of the header block, before any DATA
      have hnone := hblock hne
      have hkeep : (rs ++ (c.writeHeadersFrame id s false).frame.toList).filter isData = [] := by
        rw [List.filter_append, hnone]
        rfl
      have hrest : Remains data rest (c.writeHeadersFrame id s false).stream :=
        ⟨⟨hleft.doResponse, hleft.connType, hleft.size, hleft.ranges, hleft.holds⟩,
          hleft.iterator, hleft.single, hleft.left⟩
      refine .sending hrest ?_ (horder.append (.inr hnone)) fun _ => hkeep
      rw [hkeep, ← hnone]
      exact hdata
    · rw [Option.toList_none, List.append_nil]
      exact .sending hleft hdata horder hblock
    · rw [hsends.frame, Option.toList_some]
      by_cases hdone : w.done = true
      · rw [if_pos hdone]
        refine .completed hsends.type ?_ horder (hsends.flag.trans hdone)
        rw [hsends.last hdone]
        exact hdata
      · rw [if_neg hdone]
        have hmore : w.done = false := by simpa using hdone
        obtain ⟨hbuffer, rest', hsplit, hne, hrest⟩ := hsends.left hmore
        have hlast : (rs ++ [f]).filter isData = rs.filter isData ++ [f] := by
          rw [List.filter_append, List.filter_cons, if_pos hsends.type, List.filter_nil]
        refine .sending hrest ?_ (horder.append (.inl hsends.type)) fun h => absurd hbuffer h
        rw [hlast]
        rw [hsplit] at hdata
        exact hdata.append hne (hsends.flag.trans hmore)

theorem Course.downloading {writes : List HttpConnectionEx} (h : Course reply id writes c₀ c)
    (hstart : Downloading data body [] (c₀.streams.find? id))
    (hwhole : ∀ d ∈ writes, BetweenRanges id d) :
    ∃ t, c.trace = t ++ c₀.trace ∧
      Downloading data body (responseFrames id (queued t)) (c.streams.find? id) := by
  have hcourse : ∃ t, c.trace = t ++ c₀.trace ∧ ((∀ d ∈ writes, BetweenRanges id d) →
      Downloading data body (responseFrames id (queued t)) (c.streams.find? id)) := by
    apply h.invariant (P := fun writes rs stream => (∀ d ∈ writes, BetweenRanges id d) →
      Downloading data body rs stream)
    · intro _
      exact hstart
    · intro writes rs c hP _ hwhole
      exact hP fun d hd => hwhole d (List.mem_append_left _ hd)
    · intro writes rs c s w hP hfind hw hwrite hwhole
      have hbefore := hP fun d hd => hwhole d (List.mem_append_left _ hd)
      exact hbefore.turn (hwhole c (by simp) hw s hfind) hwrite
    · intro writes rs s s' hP hreply hwhole
      exact (hP hwhole).of_reply hreply
  obtain ⟨t, ht, hdownloading⟩ := hcourse
  exact ⟨t, ht, hdownloading hwhole⟩

/-- What was sent of a download, among all the frames that were queued. When the stream is gone, the
whole body was sent, and the last frame has ended the stream. -/
structure DownloadSent (id : ℕ) (body : Bytes) (fs : List Http2Frame) (stream : Option HttpStream) :
    Prop extends BodySent id body fs where
  order : DataLast (responseFrames id fs)
  whole : stream = none → payloads (dataFrames id fs) = body ∧
    ∃ ds f, dataFrames id fs = ds ++ [f] ∧ f.hasFlag frameFlagEndStream = true

theorem Downloading.downloadSent (h : Downloading data body (responseFrames id fs) stream) :
    DownloadSent id body fs stream := by
  generalize hframes : responseFrames id fs = rs at h
  cases h with
  | sending hleft hdata horder hblock =>
    subst hframes
    exact ⟨hdata.bodySent, horder, fun hnone => by cases hnone⟩
  | @completed rs f htype hdata horder hflag =>
    have hds : dataFrames id fs = rs.filter isData ++ [f] := by
      rw [dataFrames_eq, hframes, filter_isData rfl htype]
      rfl
    refine ⟨hdata.bodySent_last hframes htype hflag, ?_, fun _ => ⟨?_, _, f, hds, hflag⟩⟩
    · rw [hframes]
      exact horder.append (.inl htype)
    · rw [hds, payloads_append, payloads_singleton, hdata.split]

open HttpServiceImpl

variable {serv : HttpServiceImpl} {host : Host} {h : Handleable} {filename : Bytes} {file : File}

/-- A new stream that has the answer of the service. -/
structure Answered (serv : HttpServiceImpl) (host : Host) (h : Handleable) (s : HttpStream) :
    Prop where
  handled : s.toHandleable = { serv.handleRequest host h with
    response := convert2Http2 (serv.handleRequest host h).response }
  doResponse : s.doResponse = true
  expectLength : s.expectLength = 0
  realLength : s.realLength = 0

theorem contentLength_convert (response : Response) :
    contentLength (convert2Http2 response) = contentLength response := by
  have hstatus : foldCase (bytes "content-length") ≠ foldCase (bytes ":status") := by decide
  unfold contentLength convert2Http2 Header.get Header.set
  dsimp only
  rw [OrdMap.find?_insert_of_ne _ _ hstatus]

theorem Answered.remains (hanswered : Answered serv host h s)
    (hserves : serv.Serves host h filename file) :
    Remains file.data (downloadBody s.contentType file.data s.ranges) s := by
  obtain ⟨hoffers, -⟩ := hserves.offers
  have hholds := hserves.holds
  have hhandled := hanswered.handled
  have htype : s.connType = (serv.handleRequest host h).connType := by rw [hhandled]
  have hfile : s.file = (serv.handleRequest host h).file := by rw [hhandled]
  have hsize : s.filesize = (serv.handleRequest host h).filesize := by rw [hhandled]
  have hranges : s.ranges = (serv.handleRequest host h).ranges := by rw [hhandled]
  have hfirst : s.rangeIterator = 0 := by
    rw [hhandled]
    exact hoffers.first
  have hnone : s.expectLength - s.realLength = 0 := by
    rw [hanswered.expectLength, Nat.zero_sub]
  refine ⟨⟨hanswered.doResponse, htype.trans hoffers.connType, hsize.trans hoffers.size,
    hranges.trans_ne hoffers.ranges, by rwa [hranges]⟩, ?_, ?_, ?_⟩
  · rw [hfirst]
    exact Nat.zero_le _
  · exact fun _ => .inl ⟨hfirst, hanswered.expectLength⟩
  · refine ⟨[], ⟨file.pos, hfile.trans hoffers.opened, ?_, ?_⟩, ?_⟩
    · rw [hnone]
      exact Nat.zero_le _
    · rw [hnone, List.take_zero]
    · rw [hfirst, behind_zero, List.nil_append]

/-- In every course of a download that never finds it in the middle of one of several ranges, the
frames after its header are DATA frames whose payloads are a beginning of the body, END_STREAM is on
the frame that completes it, which is the last, and the stream does not go before. The length of the
body is the content length, if it is a number of 64 bits. -/
theorem download_sent {writes : List HttpConnectionEx} (hserves : serv.Serves host h filename file)
    (hanswered : Answered serv host h s) (hcourse : Course reply id writes c₀ c)
    (hfind : c₀.streams.find? id = some s) (hwhole : ∀ d ∈ writes, BetweenRanges id d)
    (ht : c.trace = t ++ c₀.trace) :
    DownloadSent id (downloadBody s.contentType file.data s.ranges) (queued t)
        (c.streams.find? id) ∧
      (serv.LeavesLength → (downloadBody s.contentType file.data s.ranges).length < 2 ^ 64 →
        contentLength s.response =
          toDecimal (downloadBody s.contentType file.data s.ranges).length) := by
  constructor
  · have hstart : Downloading file.data (downloadBody s.contentType file.data s.ranges) []
        (c₀.streams.find? id) := by
      rw [hfind]
      exact .sending (hanswered.remains hserves) (.start _) .nil fun _ => rfl
    obtain ⟨t', ht', hdownloading⟩ := hcourse.downloading hstart hwhole
    obtain rfl : t = t' := List.append_cancel_right (ht.symm.trans ht')
    exact hdownloading.downloadSent
  · intro hleaves hfits
    obtain ⟨hoffers, hlength⟩ := hserves.offers
    have hhandled := hanswered.handled
    have hresponse : s.response = convert2Http2 (serv.handleRequest host h).response := by
      rw [hhandled]
    have hsame : downloadBody s.contentType file.data s.ranges =
        downloadBody (serv.handleRequest host h).contentType file.data
          (serv.handleRequest host h).ranges := by
      rw [hhandled]
    rw [hsame] at hfits ⊢
    rw [hresponse, contentLength_convert, hlength hleaves,
      hoffers.countedLength_eq hserves.holds hfits]

/-- A host with one file of eight octets. -/
def oneFile : Host where
  exist _ := true
  isRegularFile _ := true
  isDirectory _ := false
  create _ := some ⟨bytes "contents", 0⟩
  fileSize _ := 8
  lastModified _ := []
  formatExpires _ := []
  indet _ := 0

def rangeRequest (ranges : String) : Handleable where
  request := {
    url := bytes "/static/f"
    header := Header.set {} (bytes "Range") (bytes ranges) }

/-- The stream of such a request. -/
def rangeStream (ranges : String) : HttpStream where
  toHandleable := { fileService.handleRequest oneFile (rangeRequest ranges) with
    response := convert2Http2 (fileService.handleRequest oneFile (rangeRequest ranges)).response }
  endpointWindowSize := 65535
  doResponse := true

def downloading (window : ℕ) (ranges : String) : HttpConnectionEx where
  isRead := true
  endpointWindowSize := window
  streams := OrdMap.empty.insert 1 (rangeStream ranges)

/-- Rounds of writing that complete one after the other. -/
def rounds : ℕ → HttpConnectionEx → Except Fault HttpConnectionEx
  | 0, c => .ok c
  | n + 1, c => do
    let d ← c.handleWrite
    rounds n { d with isWrite := false }

theorem rounds_course {n : ℕ} (h : rounds n c = .ok c') :
    ∃ writes, Course reply id writes c c' := by
  induction n generalizing c with
  | zero =>
    cases h
    exact ⟨[], .refl _⟩
  | succ n ih =>
    obtain ⟨d, hwrite, h⟩ := bind_eq_ok.mp h
    obtain ⟨writes, hrest⟩ := ih h
    have hfirst : Course reply id ([] ++ [c]) c { d with isWrite := false } :=
      .other (.write (.refl c) hwrite) ⟨rfl, [], rfl, rfl⟩
    exact ⟨_, hfirst.trans hrest⟩

theorem exists_ok {α : Type} {x : Except Fault α} {p : α → Bool} (h : x.toOption.any p = true) :
    ∃ a, x = .ok a ∧ p a = true := by
  cases x with
  | error e => cases h
  | ok a => exact ⟨a, rfl, h⟩

theorem oneFile_serves : fileService.Serves oneFile (rangeRequest "bytes=1-2")
    (bytes "/srv/f") ⟨bytes "contents", 0⟩ := by
  constructor <;> decide +kernel

theorem rangeStream_answered (ranges : String) :
    Answered fileService oneFile (rangeRequest ranges) (rangeStream ranges) :=
  ⟨rfl, rfl, rfl, rfl⟩

theorem downloading_find? (window : ℕ) (ranges : String) :
    (downloading window ranges).streams.find? 1 = some (rangeStream ranges) :=
  OrdMap.find?_insert_self _ _ _

/-- One range is sent at once. -/
theorem download_sent_single : ∃ c, (downloading 65535 "bytes=1-2").handleWrite = .ok c ∧
    c.streams.find? 1 = none ∧ DownloadSent 1 (bytes "on") (queued c.trace) none ∧
    contentLength (rangeStream "bytes=1-2").response = bytes "2" := by
  obtain ⟨c, hc, hgone⟩ : ∃ c, (downloading 65535 "bytes=1-2").handleWrite = .ok c ∧
      (c.streams.find? 1).isNone = true := exists_ok (by decide +kernel)
  have hnone := Option.isNone_iff_eq_none.mp hgone
  have hsingle : (rangeStream "bytes=1-2").ranges.length = 1 := by decide +kernel
  have hbody : downloadBody (rangeStream "bytes=1-2").contentType (bytes "contents")
      (rangeStream "bytes=1-2").ranges = bytes "on" := by decide +kernel
  have hwhole : ∀ d ∈ [] ++ [downloading 65535 "bytes=1-2"], BetweenRanges 1 d := by
    intro d hd _ s hs hmany
    obtain rfl := List.mem_singleton.mp hd
    obtain rfl := Option.some.inj ((downloading_find? _ _).symm.trans hs)
    omega
  obtain ⟨hsent, hlength⟩ := download_sent oneFile_serves (rangeStream_answered _)
    (.write (.refl _) hc) (downloading_find? _ _) hwhole (List.append_nil _).symm
  rw [hbody] at hsent hlength
  rw [hnone] at hsent
  have hleaves : fileService.LeavesLength := fun _ h => by cases h
  exact ⟨c, hc, hnone, hsent, hlength hleaves (by decide)⟩

/-- With a window of 92 octets, three octets of the first range go with its subheader, and the fourth
is lost. -/
theorem download_cut :
    fileService.Serves oneFile (rangeRequest "bytes=0-3,4-4") (bytes "/srv/f")
        ⟨bytes "contents", 0⟩ ∧
      Answered fileService oneFile (rangeRequest "bytes=0-3,4-4") (rangeStream "bytes=0-3,4-4") ∧
      ∃ writes c, Course reply 1 writes (downloading 92 "bytes=0-3,4-4") c ∧
        c.streams.find? 1 = none ∧ payloads (dataFrames 1 (queued c.trace)) ≠
          downloadBody (rangeStream "bytes=0-3,4-4").contentType (bytes "contents")
            (rangeStream "bytes=0-3,4-4").ranges := by
  have hserves : fileService.Serves oneFile (rangeRequest "bytes=0-3,4-4") (bytes "/srv/f")
      ⟨bytes "contents", 0⟩ := by constructor <;> decide +kernel
  obtain ⟨c, hc, hcut⟩ : ∃ c, rounds 4 (downloading 92 "bytes=0-3,4-4") = .ok c ∧
      decide (c.streams.find? 1 = none ∧ payloads (dataFrames 1 (queued c.trace)) ≠
        downloadBody (rangeStream "bytes=0-3,4-4").contentType (bytes "contents")
          (rangeStream "bytes=0-3,4-4").ranges) = true := exists_ok (by decide +kernel)
  obtain ⟨writes, hcourse⟩ := rounds_course hc
  exact ⟨hserves, rangeStream_answered _, writes, c, hcourse, of_decide_eq_true hcut⟩

end HttpConnectionEx
end Sese.Service.Http
