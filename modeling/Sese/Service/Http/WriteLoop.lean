import Sese.Service.Http.FrameSlices
import Sese.Service.Http.Transitions
import Sese.Service.Http.HttpServiceImpl

/-!
# The end of the write loop

A round of `handleWrite` ends unless it comes to a download without ranges, which no
branch of its loop moves past. `handleRequest` leaves such a stream behind when a file
below a mount point exists but cannot be opened: the response then has the code 500
while the stream still counts as a download.

`requestOf` is the request that a frame completes, as it is given to `handleRequest`.
-/
namespace Sese.Net.Http

open Foundation

theorem DynamicTable.evict_avoids {max addition size : ℕ} {queue : List (Bytes × Bytes)} :
    Avoids .endlessLoop (fun _ => True) (DynamicTable.evict max addition size queue) := by
  induction queue generalizing size with
  | nil =>
    unfold DynamicTable.evict
    split_ifs
    · simp [Avoids]
    · trivial
  | cons e queue ih =>
    unfold DynamicTable.evict
    split_ifs
    · exact ih
    · trivial

theorem DynamicTable.resize_avoids {t : DynamicTable} {max : ℕ} :
    Avoids .endlessLoop (fun _ => True) (t.resize max) :=
  evict_avoids.bind fun _ _ _ => trivial

theorem DynamicTable.set_avoids {t : DynamicTable} {key value : Bytes} :
    Avoids .endlessLoop (fun _ => True) (t.set key value) := by
  unfold DynamicTable.set
  dsimp only
  split_ifs
  · trivial
  · trivial
  · exact evict_avoids.bind fun _ _ _ => trivial

namespace HPackUtil

variable {indet : ℕ → UInt8} {s : DecodeState} {buf : UInt8}

theorem decodeLoop_avoids {src : Bytes} {dest m len : ℕ} :
    Avoids .endlessLoop (fun _ => True) (decodeLoop src dest m len) := by
  induction src generalizing dest m len with
  | nil => trivial
  | cons b src ih =>
    unfold decodeLoop
    dsimp only
    split_ifs
    · simp [Avoids]
    · trivial
    · exact ih

theorem decodeInteger_avoids {src : Bytes} {n : ℕ} :
    Avoids .endlessLoop (fun _ => True) (decodeInteger buf src n) := by
  unfold decodeInteger
  dsimp only
  split_ifs
  · exact decodeLoop_avoids
  · trivial

theorem readString_avoids : Avoids .endlessLoop (fun _ => True) (readString indet s) := by
  have hstring : Avoids .endlessLoop (fun _ => True) (decodeString (indet s.len) s.src) := by
    refine decodeInteger_avoids.bind fun r _ _ => ?_
    split
    · trivial
    · split_ifs
      · trivial
      · trivial
      · trivial
      · dsimp only
        split
        · simp [Avoids, throw, throwThe, MonadExceptOf.throw]
        · trivial
  refine hstring.bind fun r _ _ => ?_
  split <;> trivial

theorem decodeLiteral_avoids {n : ℕ} {isStore : Bool} :
    Avoids .endlessLoop (fun _ => True) (decodeLiteral indet n isStore buf s) := by
  refine decodeInteger_avoids.bind fun r hr _ => ?_
  clear hr
  split
  · trivial
  · rename_i index l src
    have hkey : Avoids .endlessLoop (fun _ => True)
        (readKey indet index { s with src := src, len := s.len + l }) := by
      unfold readKey
      split_ifs
      · trivial
      · exact readString_avoids
    refine hkey.bind fun r _ _ => ?_
    split
    · trivial
    · refine readString_avoids.bind fun r _ _ => ?_
      split
      · trivial
      · split_ifs
        · exact DynamicTable.set_avoids.bind fun _ _ _ => trivial
        · trivial

theorem decodeField_avoids {limit : ℕ} :
    Avoids .endlessLoop (fun _ => True) (decodeField indet limit s) := by
  unfold decodeField
  split
  · trivial
  · dsimp only
    split_ifs
    · refine decodeInteger_avoids.bind fun r _ _ => ?_
      split
      · trivial
      · dsimp only
        split_ifs
        · trivial
        · split <;> trivial
    · refine decodeInteger_avoids.bind fun r _ _ => ?_
      split
      · trivial
      · dsimp only
        split_ifs
        · trivial
        · exact DynamicTable.resize_avoids.bind fun _ _ _ => trivial
    · exact decodeLiteral_avoids
    · exact decodeLiteral_avoids

theorem decodeFields_avoids {contentLength limit rounds : ℕ} :
    Avoids .endlessLoop (fun _ => True) (decodeFields indet contentLength limit rounds s) := by
  induction rounds generalizing s with
  | zero => trivial
  | succ rounds ih =>
    unfold decodeFields
    split_ifs
    · refine decodeField_avoids.bind fun r _ _ => ?_
      split_ifs
      · trivial
      · exact ih
    · trivial

theorem decode_avoids {src : Bytes} {contentLength limit : ℕ} {table : DynamicTable}
    {header : Header} {isResp hasPseudo : Bool} : Avoids .endlessLoop (fun _ => True)
      (decode indet src contentLength table header isResp hasPseudo limit) := by
  refine decodeFields_avoids.bind fun r _ _ => ?_
  dsimp only
  split_ifs <;> trivial

theorem encodeIndexed_avoids {table : DynamicTable} {item : Bytes × Bytes} :
    Avoids .endlessLoop (fun _ => True) (encodeIndexed table item) := by
  unfold encodeIndexed
  split
  · trivial
  · exact DynamicTable.set_avoids.bind fun _ _ _ => trivial
  · split
    · trivial
    · exact DynamicTable.set_avoids.bind fun _ _ _ => trivial
    · exact DynamicTable.set_avoids.bind fun _ _ _ => trivial

theorem encode_avoids {formatExpires : ℕ → Bytes} {table : DynamicTable} {once indexed : Header} :
    Avoids .endlessLoop (fun _ => True) (encode formatExpires table once indexed) := by
  have hfields (items : List (Bytes × Bytes)) :
      Avoids .endlessLoop (fun _ => True) (encodeFields table items) := by
    induction items generalizing table with
    | nil => trivial
    | cons item items ih =>
      exact encodeIndexed_avoids.bind fun _ _ _ => ih.bind fun _ _ _ => trivial
  exact (hfields _).bind fun _ _ _ => trivial

end HPackUtil
end Sese.Net.Http

namespace Sese.Service.Http

open Foundation Sese.Net.Http

namespace HttpConnectionEx

variable {env : Env} {c c' d : HttpConnectionEx} {id : ℕ} {s s' : HttpStream}

/-- The request that `headersEnd` gives to `handleRequest`. -/
def blockRequest (env : Env) (c : HttpConnectionEx) (s : HttpStream) : Option Handleable :=
  match HPackUtil.decode env.indet s.tempBuffer s.tempBuffer.length c.reqDynamicTable
    s.request.header false true c.headerTableSize with
  | .error _ => none
  | .ok (code, d) =>
    let r := convertFromHttp2 { s.request with header := d.header }
    if code = 0 ∧ r.2 ∧ s.endStream then
      some (env.handleFilter { s.toHandleable with request := r.1 })
    else none

/-- The stream with the header block fragment of the frame. -/
def withFragment (c : HttpConnectionEx) (s : HttpStream) : HttpStream :=
  { s with
    continueType := c.frame.type
    tempBuffer := s.tempBuffer ++ c.slice (fragmentOffset c.frame)
      (c.frame.length - c.paddedLength - fragmentOffset c.frame)
    endHeaders := s.endHeaders || c.frame.hasFlag frameFlagEndHeaders
    endStream := s.endStream || c.frame.hasFlag frameFlagEndStream }

/-- The request that `headersFragment` gives to `handleRequest`. -/
def fragmentRequest (env : Env) (c : HttpConnectionEx) (s : HttpStream) : Option Handleable :=
  if c.dependsOnItself ∨ c.paddedLength > c.frame.length then none
  else if (c.withFragment s).endHeaders then blockRequest env c (c.withFragment s)
  else none

/-- The request that `dataEnd` gives to `handleRequest`. -/
def endRequest (c : HttpConnectionEx) : Option Handleable :=
  if c.frame.hasFlag frameFlagEndStream then
    (c.held c.frame.ident).bind fun s =>
      let header := s.request.header
      if s.connType ≠ .filter ∧ header.exist (bytes "content-length") ∧
          toUInt64 (toInteger (header.get (bytes "content-length") [])) ≠ s.request.body.length then
        none
      else if header.exist (bytes "te") ∨ header.exist (bytes "trailer") then none
      else some s.toHandleable
  else none

/-- The connection with `data` appended to the body of the request. -/
def withBody (c : HttpConnectionEx) (s : HttpStream) (data : Bytes) : HttpConnectionEx :=
  c.setHeld c.frame.ident { s with request := { s.request with body := s.request.body ++ data } }

/-- The request that `dataBody` gives to `handleRequest`. -/
def bodyRequest (c : HttpConnectionEx) : Option Handleable :=
  (c.held c.frame.ident).bind fun s =>
    if c.frame.hasFlag frameFlagPadded then
      if c.paddedLength > c.frame.length then none
      else if s.connType = .filter then c.endRequest
      else (c.withBody s (c.slice 1 (c.frame.length - c.paddedLength - 1))).endRequest
    else if s.connType = .filter then c.endRequest
    else (c.withBody s c.payload).endRequest

/-- The request that the handler of the frame gives to `handleRequest`. -/
def requestOf (env : Env) (c : HttpConnectionEx) : Option Handleable :=
  if c.interrupts then none
  else if c.takesFragment then c.fragmentStart.bind fun p => fragmentRequest env p.1 p.2
  else if c.frame.type = frameTypeData then c.bodyStart.bind bodyRequest
  else none

end HttpConnectionEx

/-- The loop of `handleWrite` moves past the stream. -/
def Handleable.Moves (h : Handleable) : Prop := h.connType = .fileDownload → h.ranges ≠ []

namespace HttpServiceImpl

variable {serv : HttpServiceImpl} {host : Host} {h : Handleable}

def cannotOpen (host : Host) (filename : Bytes) : Bool :=
  host.exist filename && host.isRegularFile filename && !host.isDirectory filename &&
    (host.create filename).isNone

def unopened (h : Handleable) : Handleable :=
  ({ h with connType := .fileDownload, file := none }.setCode 500).setLength

/-- The tail filter takes the response with the code 500 over. -/
def takesFailure (serv : HttpServiceImpl) (h : Handleable) : Bool :=
  let h := serv.uniFields (unopened h)
  serv.tailFilter.any fun tailFilter => (tailFilter h.request h.response).1

/-- The file that the request asks for cannot be opened, no tail filter takes the
response over, and there are no ranges of an earlier request. -/
def strands (serv : HttpServiceImpl) (host : Host) (h : Handleable) : Bool :=
  (serv.mounted h).any (fun m => cannotOpen host (mountedFile m h.request.uri)) &&
    !serv.takesFailure h && h.ranges.isEmpty

theorem uniFields_same (serv : HttpServiceImpl) (h : Handleable) :
    (serv.uniFields h).connType = h.connType ∧ (serv.uniFields h).ranges = h.ranges ∧
      (serv.uniFields h).response.code = h.response.code := by
  unfold uniFields
  dsimp only
  split_ifs <;> exact ⟨rfl, rfl, rfl⟩

theorem uniHandle_moves (hh : h.Moves) : (serv.uniHandle h).Moves := by
  obtain ⟨htype, hranges, -⟩ := uniFields_same serv h
  have hfields : (serv.uniFields h).Moves := by
    unfold Handleable.Moves
    rw [htype, hranges]
    exact hh
  unfold uniHandle
  dsimp only
  split
  · exact hfields
  · split_ifs
    · exact hfields
    · intro hdownload
      cases hdownload
    · exact hfields

theorem chooseRanges_moves (h : Handleable) : (chooseRanges h).1.Moves := by
  unfold chooseRanges
  dsimp only
  split
  · intro _ hnil
    cases hnil
  · intro _ hnil
    split_ifs at hnil <;> cases hnil
  · rename_i hne _
    intro _ hnil
    split_ifs at hnil <;> exact hne hnil

theorem download_moves {filename : Bytes} (hh : h.Moves ∨ cannotOpen host filename = false) :
    (serv.download host filename h).Moves := by
  unfold download
  dsimp only
  split_ifs with hmissing hopen hrange
  · intro hdownload
    cases hdownload
  · have hfail : cannotOpen host filename = true := by
      simp only [Bool.or_eq_true, Bool.not_eq_true', not_or, Bool.not_eq_false,
        Bool.not_eq_true] at hmissing
      simp [cannotOpen, hmissing.1.1, hmissing.1.2, hmissing.2, hopen]
    rcases hh with hh | hh
    · exact hh
    · rw [hfail] at hh
      cases hh
  · exact chooseRanges_moves _
  · exact chooseRanges_moves _

theorem filterLoop_moves (l : List (Bytes × FilterCallback)) (hh : h.Moves) :
    (filterLoop l h).Moves := by
  induction l generalizing h with
  | nil => exact hh
  | cons f l ih =>
    unfold filterLoop
    dsimp only
    split_ifs
    · apply ih
      intro hdownload
      cases hdownload
    · intro hdownload
      cases hdownload
    · exact ih hh

/-- The response with the code 500 is taken over by the tail filter, or keeps the type
of a download. -/
theorem uniHandle_unopened (serv : HttpServiceImpl) (h : Handleable) :
    (serv.uniHandle (unopened h)).Moves ↔ serv.takesFailure h ∨ h.ranges ≠ [] := by
  obtain ⟨htype, hranges, hcode⟩ := uniFields_same serv (unopened h)
  have hfields : (serv.uniFields (unopened h)).Moves ↔ h.ranges ≠ [] := by
    unfold Handleable.Moves
    rw [htype, hranges]
    exact ⟨fun hm => hm rfl, fun hr _ => hr⟩
  have hfail : ¬ ((serv.uniFields (unopened h)).response.code = 200 ∨
      (serv.uniFields (unopened h)).response.code = 201) := by
    have hfive : (unopened h).response.code = 500 := rfl
    rw [hcode, hfive]
    decide
  unfold uniHandle takesFailure
  dsimp only
  cases serv.tailFilter with
  | none => simpa using hfields
  | some tailFilter =>
    dsimp only
    rw [if_neg hfail]
    simp only [Option.any_some]
    split_ifs with htakes
    · simp [htakes, Handleable.Moves, Handleable.setLength, Handleable.set]
    · simp only [htakes, Bool.false_eq_true, false_or]
      exact hfields

/-- `handleRequest` leaves a stream that the loop does not move past in one case only. -/
theorem handleRequest_moves_iff (hh : h.Moves) :
    (serv.handleRequest host h).Moves ↔ serv.strands host h = false := by
  unfold handleRequest strands
  cases hmounted : serv.mounted h with
  | none =>
    simp only [Option.any_none, Bool.false_and, iff_true]
    split
    · apply uniHandle_moves
      unfold invoke
      rename_i hnone
      intro hdownload
      split at hdownload
      · rw [show ((h.setCode 404).setLength).connType = h.connType from rfl, hnone] at hdownload
        cases hdownload
      · cases hdownload
    · exact uniHandle_moves (download_moves (.inl hh))
    · exact uniHandle_moves hh
  | some m =>
    simp only [Option.any_some]
    cases hopen : cannotOpen host (mountedFile m h.request.uri) with
    | false =>
      simp only [Bool.false_and, iff_true]
      exact uniHandle_moves (download_moves (.inr hopen))
    | true =>
      have hdownload : serv.download host (mountedFile m h.request.uri)
          { h with connType := .fileDownload } = unopened h := by
        simp only [cannotOpen, Bool.and_eq_true, Bool.not_eq_true', Option.isNone_iff_eq_none] at hopen
        obtain ⟨⟨⟨hexist, hregular⟩, hdir⟩, hnone⟩ := hopen
        simp [download, unopened, hexist, hregular, hdir, hnone]
      rw [hdownload, uniHandle_unopened]
      cases serv.takesFailure h <;> cases h.ranges <;> simp

end HttpServiceImpl

namespace HttpConnectionEx

variable {env : Env} {c c' d : HttpConnectionEx} {id : ℕ} {s s' : HttpStream}

/-- The loop of `handleWrite` moves past every stream. -/
def Movable (c : HttpConnectionEx) : Prop := c.AllHeld fun s => s.toHandleable.Moves

theorem Movable.set (hc : c.Movable) (hfind : c.streams.find? id = some s)
    (hs : s'.toHandleable = s.toHandleable) : (c.setStream id s').Movable := by
  have hmoves := hc.find? hfind
  rw [← hs] at hmoves
  exact hc.setStream id hmoves

theorem moves_of_sent (s s' : HttpStream) (h : SentFrom s s') (hs : s.toHandleable.Moves) :
    s'.toHandleable.Moves := by
  unfold Handleable.Moves
  rw [h.connType, h.ranges]
  exact hs

theorem readFile_avoids {n : ℕ} : Avoids .endlessLoop (fun _ => True) (readFile s n) := by
  unfold readFile
  split
  · simp [Avoids]
  · trivial

theorem prepareRange_avoids : Avoids .endlessLoop (fun _ => True) s.prepareRange := by
  unfold HttpStream.prepareRange
  split
  · trivial
  · simp [Avoids]

theorem writeDataFrame4SingleRange_avoids :
    Avoids .endlessLoop (fun _ => True) (c.writeDataFrame4SingleRange id s) := by
  have hprepared : Avoids .endlessLoop (fun _ => True) (prepared s) := by
    unfold prepared
    split_ifs
    · exact prepareRange_avoids
    · trivial
  unfold writeDataFrame4SingleRange
  split_ifs
  · trivial
  · exact hprepared.bind fun _ _ _ => readFile_avoids.bind fun _ _ _ => trivial

theorem writeDataFrame4Ranges_avoids :
    Avoids .endlessLoop (fun _ => True) (c.writeDataFrame4Ranges id s) := by
  unfold writeDataFrame4Ranges
  by_cases hclosed : c.endpointWindowSize = 0 ∨ s.endpointWindowSize = 0
  · rw [if_pos hclosed]
    trivial
  rw [if_neg hclosed]
  by_cases hdone : s.realLength ≥ s.expectLength
  · rw [if_pos hdone]
    split
    · dsimp only
      split_ifs
      · trivial
      · refine prepareRange_avoids.bind fun _ _ _ => ?_
        exact readFile_avoids.bind fun _ _ _ => trivial
    · split_ifs <;> trivial
  · rw [if_neg hdone]
    exact readFile_avoids.bind fun _ _ _ => trivial

theorem writeStream_avoids (hs : s.toHandleable.Moves) :
    Avoids .endlessLoop (fun _ => True) (c.writeStream id s) := by
  unfold writeStream
  split_ifs with _ hdownload _ _ hmany
  · trivial
  · trivial
  · exact writeDataFrame4SingleRange_avoids
  · exact writeDataFrame4Ranges_avoids
  · have hlen := List.length_pos_iff.mpr (hs hdownload)
    omega
  · trivial
  · trivial
  · trivial

theorem writeLoop_avoids {l : List (ℕ × HttpStream)} (hl : ∀ e ∈ l, e.2.toHandleable.Moves) :
    Avoids .endlessLoop (fun _ => True) (writeLoop l c) := by
  induction l generalizing c with
  | nil => trivial
  | cons e l ih =>
    refine (writeStream_avoids (hl e (List.mem_cons_self ..))).bind fun w _ _ => ?_
    exact ih fun e' he' => hl e' (List.mem_cons_of_mem _ he')

theorem handleWrite_avoids (hc : c.Movable) : Avoids .endlessLoop Movable c.handleWrite := by
  have hentries (d : HttpConnectionEx) (hd : d.streams = c.streams) :
      ∀ e ∈ d.streams.entries, e.2.toHandleable.Moves := by
    intro e he
    rw [hd] at he
    exact hc.find? (c.streams.find?_eq_some_of_mem he)
  have hends : Avoids .endlessLoop (fun _ => True) c.handleWrite := by
    unfold handleWrite
    dsimp only
    split_ifs
    · trivial
    · exact (writeLoop_avoids (hentries c rfl)).bind fun _ _ _ => trivial
    · trivial
    · exact (writeLoop_avoids (hentries _ rfl)).bind fun _ _ _ => trivial
  exact hends.imp fun c' hc' _ => AllHeld.handleWrite moves_of_sent hc' hc

theorem pushed_avoids {f : Http2Frame} (hc : c.Movable) :
    Avoids .endlessLoop Movable (c.push f).handleWrite :=
  handleWrite_avoids (hc.congr rfl rfl)

theorem goaway_avoids {latest code : ℕ} {msg : Bytes} {once : Bool} (hc : c.Movable) :
    Avoids .endlessLoop Movable (c.writeGoawayFrame latest code msg once) := by
  unfold writeGoawayFrame
  dsimp only
  split_ifs
  · exact hc.congr rfl rfl
  · exact handleWrite_avoids (hc.congr rfl rfl)

theorem settings_avoids (hc : c.Movable) :
    Avoids .endlessLoop (fun r => r.2.Movable) c.handleSettingsFrame := by
  have happly (ident value : ℕ) (c : HttpConnectionEx) :
      Avoids .endlessLoop (fun _ => True) (c.applySetting ident value) := by
    unfold applySetting
    refine iteInduction (fun _ => ?table) fun _ => ?_
    case table => exact DynamicTable.resize_avoids.bind fun _ _ _ => trivial
    refine iteInduction (fun _ => trivial) fun _ => ?_
    refine iteInduction (fun _ => iteInduction (fun _ => trivial) fun _ => trivial) fun _ => ?_
    refine iteInduction (fun _ => iteInduction (fun _ => trivial) fun _ => trivial) fun _ => ?_
    refine iteInduction (fun _ => ?tables) fun _ => ?_
    case tables =>
      refine DynamicTable.resize_avoids.bind fun _ _ _ => ?_
      exact DynamicTable.resize_avoids.bind fun _ _ _ => trivial
    split_ifs
    · trivial
    · trivial
    · trivial
    · trivial
  have hall (l : List (ℕ × ℕ)) (c : HttpConnectionEx) :
      Avoids .endlessLoop (fun _ => True) (c.applySettings l) := by
    induction l generalizing c with
    | nil => trivial
    | cons e l ih =>
      refine (happly e.1 e.2 c).bind fun r _ _ => ?_
      dsimp only
      split_ifs
      · trivial
      · exact ih r.2
  have hends : Avoids .endlessLoop (fun _ => True) c.handleSettingsFrame := by
    unfold handleSettingsFrame
    split_ifs
    · trivial
    · trivial
    · trivial
    · trivial
    · exact hall _ c
  refine hends.imp fun r hr _ => ?_
  have hone (c : HttpConnectionEx) (ident value code : ℕ) (c' : HttpConnectionEx)
      (h : c.applySetting ident value = .ok (code, c')) :
      (c'.streams, c'.retired) = (c.streams, c.retired) := by
    obtain ⟨_, _, _, _, _, _, _, _, _, rfl, -⟩ := applySetting_eq h
    rfl
  have hsame := handleSettingsFrame_same (f := fun c : HttpConnectionEx => (c.streams, c.retired))
    hone (fun _ => rfl) hr
  exact hc.congr (congrArg Prod.fst hsame) (congrArg Prod.snd hsame)

theorem windowUpdate_avoids (hc : c.Movable) : Avoids .endlessLoop Movable c.handleWindowUpdate := by
  unfold handleWindowUpdate
  dsimp only
  split_ifs
  · exact goaway_avoids hc
  · exact goaway_avoids hc
  · exact goaway_avoids hc
  · exact hc.congr rfl rfl
  · split
    · exact hc.congr rfl rfl
    · rename_i s hfind
      split_ifs
      · exact pushed_avoids (hc.set hfind rfl)
      · have hset : (c.setStream c.frame.ident { s with
            continueType := c.frame.type
            endpointWindowSize := (s.endpointWindowSize + fromBigEndian (c.slice 0 4)) % 2 ^ 32 }
            ).Movable := hc.set hfind rfl
        exact hset.congr rfl rfl

theorem goawayFrame_avoids (hc : c.Movable) : Avoids .endlessLoop Movable c.handleGoawayFrame := by
  unfold handleGoawayFrame
  split_ifs
  · exact goaway_avoids hc
  · have hrest : ∀ d : HttpConnectionEx, d.Movable → Avoids .endlessLoop Movable
        (if d.frame.length < 8 then .error .overread
        else if d.slice 8 (d.frame.length - 8) = bytes "shutdown" then .ok d
        else .ok d.readFrameHeader : Except Fault HttpConnectionEx) := by
      intro d hd
      split_ifs
      · simp [Avoids]
      · exact hd
      · exact hd.congr rfl rfl
    apply hrest
    split
    · rename_i s hfind
      exact hc.set hfind rfl
    · exact hc

theorem rstStream_avoids (hc : c.Movable) :
    Avoids .endlessLoop Movable (c.handleRstStreamFrame env) := by
  unfold handleRstStreamFrame
  dsimp only
  split_ifs
  · exact goaway_avoids hc
  · exact goaway_avoids hc
  · exact hc.congr rfl rfl
  · split
    · exact goaway_avoids hc
    · rename_i s hfind
      exact (hc.retire _ (hc.find? hfind)).congr rfl rfl

theorem notePriority_avoids (hc : c.Movable) (hs : s.toHandleable.Moves) :
    Avoids .endlessLoop Movable (c.notePriority s) := by
  have hnoted := hc.setStream c.frame.ident (s := { s with continueType := c.frame.type }) hs
  unfold notePriority
  dsimp only
  split_ifs
  · exact goaway_avoids hnoted
  · exact hnoted.congr rfl rfl

theorem new_moves {n : ℕ} : (HttpStream.toHandleable { endpointWindowSize := n }).Moves := by
  intro hdownload
  cases hdownload

theorem priority_avoids (hc : c.Movable) : Avoids .endlessLoop Movable c.handlePriorityFrame := by
  unfold handlePriorityFrame
  dsimp only
  split_ifs
  · exact goaway_avoids hc
  · exact goaway_avoids hc
  · split
    · exact notePriority_avoids (hc.openStream _ new_moves) new_moves
    · rename_i s hfind
      exact notePriority_avoids hc (hc.find? hfind)

theorem ping_avoids (hc : c.Movable) : Avoids .endlessLoop Movable c.handlePingFrame := by
  unfold handlePingFrame
  split_ifs
  · exact goaway_avoids hc
  · exact goaway_avoids hc
  · exact goaway_avoids hc
  · exact pushed_avoids hc

/-- The service leaves streams behind that the loop moves past, when it is given the
requests of `asked`. -/
structure KeepsMoving (env : Env) (asked : Option Handleable) : Prop where
  filter : ∀ h, h.Moves → (env.handleFilter h).Moves
  request : ∀ h ∈ asked, h.Moves → (env.handleRequest h).Moves

theorem respond_avoids (hc : c.Movable) (hs : (env.handleRequest s.toHandleable).Moves) :
    Avoids .endlessLoop (fun r => r.1.Movable ∧ r.2.toHandleable.Moves) (c.respond env id s) := by
  refine HPackUtil.encode_avoids.bind fun r _ _ => ?_
  exact ⟨hc.congr rfl rfl, hs⟩

theorem headersEnd_avoids (hc : c.Movable) (hs : s.toHandleable.Moves)
    (henv : KeepsMoving env (blockRequest env c s)) :
    Avoids .endlessLoop Movable (c.headersEnd env s) := by
  unfold headersEnd
  refine HPackUtil.decode_avoids.bind fun r hr _ => ?_
  obtain ⟨code, t⟩ := r
  have hdecoded : ({ c with reqDynamicTable := t.table }.observe
      (.decoded c.frame.ident s.tempBuffer code)).Movable := hc.congr rfl rfl
  dsimp only
  split_ifs with hcode hconvert hend
  · exact goaway_avoids (hdecoded.setStream _ hs)
  · exact goaway_avoids ((hdecoded.congr rfl rfl).setStream _ hs)
  · have hfiltered := henv.filter { s.toHandleable with
      request := (convertFromHttp2 { s.request with header := t.header }).1 } hs
    have hasked : env.handleFilter { s.toHandleable with
        request := (convertFromHttp2 { s.request with header := t.header }).1 } ∈
        blockRequest env c s := by
      unfold blockRequest
      rw [hr]
      simp only [ne_eq, not_not] at hcode
      simp only [Bool.not_eq_true', Bool.not_eq_false] at hconvert
      dsimp only at hend ⊢
      rw [if_pos ⟨hcode, hconvert, hend⟩]
      rfl
    have hanswered := henv.request _ hasked hfiltered
    refine Avoids.bind (respond_avoids (hdecoded.congr rfl rfl) (by exact hanswered)) ?_
    intro r _ hr
    exact handleWrite_avoids (hr.1.setStream _ hr.2)
  · have hfiltered := henv.filter { s.toHandleable with
      request := (convertFromHttp2 { s.request with header := t.header }).1 } hs
    exact ((hdecoded.congr rfl rfl).setStream _ hfiltered).congr rfl rfl

theorem headersFragment_avoids (hc : c.Movable) (hs : s.toHandleable.Moves)
    (henv : KeepsMoving env (fragmentRequest env c s)) :
    Avoids .endlessLoop Movable (c.headersFragment env s) := by
  unfold fragmentRequest at henv
  unfold headersFragment
  dsimp only
  split_ifs with hself hpad hwrap hdone
  · exact goaway_avoids (hc.setStream _ hs)
  · exact goaway_avoids (hc.setStream _ hs)
  · simp [Avoids]
  · rw [if_neg (by tauto), if_pos (by exact hdone)] at henv
    exact headersEnd_avoids (hc.congr rfl rfl) hs henv
  · have hset := hc.setStream c.frame.ident (s := c.withFragment s) hs
    exact hset.congr rfl rfl

theorem dataEnd_avoids (hc : c.Movable) (henv : KeepsMoving env c.endRequest) :
    Avoids .endlessLoop Movable (c.dataEnd env) := by
  unfold endRequest at henv
  unfold dataEnd
  dsimp only
  by_cases hend : c.frame.hasFlag frameFlagEndStream
  · rw [if_pos hend] at henv ⊢
    unfold withHeld
    cases hheld : c.held c.frame.ident with
    | none => simp [Avoids]
    | some s =>
      have hs := hc _ _ hheld
      rw [hheld] at henv
      dsimp only [Option.bind_some] at henv ⊢
      split_ifs at henv ⊢
      · exact goaway_avoids hc
      · exact goaway_avoids hc
      · refine (respond_avoids hc (henv.request _ rfl hs)).bind ?_
        intro r _ hr
        exact handleWrite_avoids (hr.1.setHeld _ hr.2)
  · rw [if_neg hend]
    exact hc.congr rfl rfl

theorem dataBody_avoids (hc : c.Movable) (henv : KeepsMoving env c.bodyRequest) :
    Avoids .endlessLoop Movable (c.dataBody env) := by
  unfold bodyRequest at henv
  unfold dataBody withHeld
  dsimp only
  cases hheld : c.held c.frame.ident with
  | none => simp [Avoids]
  | some s =>
    have hs := hc _ _ hheld
    rw [hheld] at henv
    dsimp only [Option.bind_some] at henv ⊢
    split_ifs at henv ⊢
    · exact goaway_avoids hc
    · exact dataEnd_avoids hc henv
    · simp [Avoids]
    · exact dataEnd_avoids (hc.setHeld _ hs) henv
    · exact dataEnd_avoids hc henv
    · exact dataEnd_avoids (hc.setHeld _ hs) henv

theorem replenish_avoids (hc : c.Movable) : Avoids .endlessLoop Movable c.replenish := by
  unfold replenish
  split_ifs
  · exact (pushed_avoids hc).bind fun d _ hd => hd.congr rfl rfl
  · exact hc

theorem replenishStream_avoids (hc : c.Movable) : Avoids .endlessLoop Movable c.replenishStream := by
  unfold replenishStream withHeld
  dsimp only
  split
  · split_ifs
    · refine (pushed_avoids hc).bind fun d _ hd => ?_
      split
      · rename_i s hheld
        exact hd.setHeld _ (hd _ s hheld)
      · simp [Avoids]
    · exact hc
  · simp [Avoids]

theorem dataAccept_avoids (hc : c.Movable)
    (henv : KeepsMoving env (c.flowChecked.bind bodyRequest)) :
    Avoids .endlessLoop Movable (c.dataAccept env) := by
  unfold dataAccept withHeld
  dsimp only
  cases hheld : c.held c.frame.ident with
  | none => simp [Avoids]
  | some s =>
    have hs := hc _ _ hheld
    dsimp only
    split_ifs with hwindow
    · exact goaway_avoids (hc.setHeld _ hs)
    · have hobserved : ({ c with windowSize := c.windowSize - c.frame.length }.observe
          (.accepted c.frame.ident c.frame.length)).Movable := hc.congr rfl rfl
      have haccept : (c.acceptData c.frame s).Movable := hobserved.setHeld _ hs
      refine (replenish_avoids haccept).bind fun d hd hmoves => ?_
      refine (replenishStream_avoids hmoves).bind fun d' hd' hmoves' => ?_
      have hstart : c.flowChecked = some d' := by
        unfold flowChecked
        rw [hheld]
        dsimp only
        rw [if_neg hwindow, hd, ok_bind, hd']
        rfl
      rw [hstart] at henv
      exact dataBody_avoids hmoves' henv

theorem data_avoids (hc : c.Movable) (henv : KeepsMoving env (c.bodyStart.bind bodyRequest)) :
    Avoids .endlessLoop Movable (c.handleDataFrame env) := by
  unfold bodyStart at henv
  unfold handleDataFrame
  dsimp only at henv ⊢
  split_ifs with hack hident hclosed
  · exact goaway_avoids hc
  · exact goaway_avoids hc
  · exact goaway_avoids hc
  rw [if_neg (by tauto)] at henv
  cases hfind : c.streams.find? c.frame.ident with
  | none => exact goaway_avoids hc
  | some s =>
    simp only [hfind] at henv ⊢
    split_ifs at henv ⊢
    · refine (goaway_avoids hc).bind fun d hd hmoves => ?_
      rw [hd] at henv
      exact dataAccept_avoids hmoves henv
    · exact dataAccept_avoids hc henv

theorem fragmentStart_moves (hc : c.Movable) (h : c.fragmentStart = some (d, s)) :
    d.Movable ∧ s.toHandleable.Moves := by
  rcases fragmentStart_cases h with ⟨rfl, hfind⟩ | ⟨rfl, rfl⟩
  · exact ⟨hc, hc.find? hfind⟩
  · exact ⟨(hc.openStream _ new_moves).congr rfl rfl, new_moves⟩

theorem headers_avoids (hc : c.Movable) (hint : c.interrupts = false) (htype : isHeaders c.frame)
    (henv : KeepsMoving env (c.requestOf env)) :
    Avoids .endlessLoop Movable (c.handleFrameHeader env) := by
  have hcases : _ ∨ ∃ d s, _ ∧ _ ∧ c.handleFrameHeader env = _ :=
    handleFrameHeader_headers hint htype
  rcases hcases with ⟨-, latest, code, msg, once, hgoaway⟩ | ⟨d, s, htakes, hstart, hfragment⟩
  · rw [hgoaway]
    exact goaway_avoids hc
  · unfold requestOf at henv
    rw [hint, if_neg Bool.false_ne_true, if_pos htakes, hstart] at henv
    rw [hfragment]
    obtain ⟨hd, hs⟩ := fragmentStart_moves hc hstart
    exact headersFragment_avoids hd hs henv

/-- A frame does not make the loop of `handleWrite` endless, and leaves only streams
behind that the loop moves past. -/
theorem handleFrameHeader_avoids (hc : c.Movable) (henv : KeepsMoving env (c.requestOf env)) :
    Avoids .endlessLoop Movable (c.handleFrameHeader env) := by
  cases hheaders : isHeaders c.frame with
  | true =>
    cases hint : c.interrupts with
    | true =>
      rw [handleFrameHeader_interrupts hint]
      exact goaway_avoids hc
    | false => exact headers_avoids hc hint hheaders henv
  | false =>
    refine handleFrameHeader_rule (P := Avoids .endlessLoop Movable)
      ?goaway ?settings ?update ?goawayFrame ?headers ?data ?priority ?rstStream ?ping
    case goaway => exact fun _ _ => goaway_avoids hc
    case settings =>
      intro _ _
      refine (settings_avoids hc).bind fun r _ hr => ?_
      split_ifs
      · exact hr.congr rfl rfl
      · exact pushed_avoids hr
      · exact hr
    case update => exact fun _ _ => windowUpdate_avoids hc
    case goawayFrame => exact fun _ _ => goawayFrame_avoids hc
    case headers => exact fun _ htype => absurd htype (by simp [hheaders])
    case data =>
      intro hint hdata
      unfold requestOf at henv
      rw [if_neg (by simp [hint]), if_neg (by simp [takesFragment_eq_false hheaders]),
        if_pos hdata] at henv
      exact data_avoids hc henv
    case priority => exact fun _ _ => priority_avoids hc
    case rstStream => exact fun _ _ => rstStream_avoids hc
    case ping => exact fun _ _ => ping_avoids hc

def MovesOn (c : HttpConnectionEx) (e : Env × Event) : Prop :=
  ∀ c₀ ∈ c.delivered e.2, KeepsMoving e.1 (c₀.requestOf e.1)

theorem arrive_avoids {i : ℕ} {data : Bytes} (hc : c.Movable) :
    Avoids .endlessLoop (fun r => r.2.Movable) (c.arrive i data) := by
  unfold arrive
  split
  · simp [Avoids]
  · split_ifs
    · simp [Avoids]
    · simp [Avoids]
    · exact hc.congr rfl rfl

/-- One step neither makes the loop of `handleWrite` endless nor leaves a stream behind
that the loop does not move past. -/
theorem step_avoids {e : Env × Event} (hc : c.Movable) (henv : c.MovesOn e) :
    Avoids .endlessLoop Movable (c.step e) := by
  obtain ⟨env, e⟩ := e
  cases e with
  | read i data =>
    refine (arrive_avoids hc).bind fun r hr hmoves => ?_
    obtain ⟨op, d⟩ := r
    dsimp only at hmoves ⊢
    by_cases hlen : data.length ≠ op.length
    · rw [if_pos hlen]
      exact hmoves.congr rfl rfl
    rw [if_neg hlen]
    rw [not_not] at hlen
    cases hkind : op.kind with
    | magic =>
      dsimp only
      unfold onMagic
      split_ifs
      · exact hmoves.congr rfl rfl
      · exact pushed_avoids (hmoves.congr rfl rfl)
    | frameHeader =>
      dsimp only
      unfold onFrameHeader
      dsimp only
      split_ifs
      · exact goaway_avoids (hmoves.congr rfl rfl)
      · exact hmoves.congr rfl rfl
    | payload =>
      refine handleFrameHeader_avoids (hmoves.congr rfl rfl) (henv _ ?_)
      simp only [delivered, hr, hlen, hkind, and_self, if_true]
      rfl
  | readFailed i =>
    simp only [step]
    split_ifs
    · exact hc.congr rfl rfl
    · simp [Avoids]
  | written i =>
    simp only [step]
    split
    · simp [Avoids]
    · exact handleWrite_avoids (hc.congr rfl rfl)
    · exact hc.congr rfl rfl
  | writeFailed i =>
    simp only [step]
    split_ifs
    · exact hc.congr rfl rfl
    · simp [Avoids]

end HttpConnectionEx

namespace HttpServiceImpl

open HttpConnectionEx

variable {serv : HttpServiceImpl} {c : HttpConnectionEx}

/-- One event of a connection of the service, with the host at that time. -/
def step (serv : HttpServiceImpl) (c : HttpConnectionEx) (e : Host × Event) :
    Except Fault HttpConnectionEx :=
  c.step (serv.env e.1, e.2)

/-- The request that the event completes, if any, does not ask for a file that is
there and cannot be opened, unless the tail filter takes the failure over. -/
def OpensFiles (serv : HttpServiceImpl) (c : HttpConnectionEx) (e : Host × Event) : Prop :=
  ∀ c₀ ∈ c.delivered e.2, ∀ h ∈ c₀.requestOf (serv.env e.1), serv.strands e.1 h = false

instance (serv : HttpServiceImpl) (c : HttpConnectionEx) (e : Host × Event) :
    Decidable (serv.OpensFiles c e) :=
  inferInstanceAs (Decidable (∀ c₀ ∈ c.delivered e.2, ∀ h ∈ c₀.requestOf (serv.env e.1),
    serv.strands e.1 h = false))

theorem OpensFiles.movesOn {e : Host × Event} (h : serv.OpensFiles c e) :
    c.MovesOn (serv.env e.1, e.2) := by
  intro c₀ hc₀
  constructor
  · intro h hh
    exact filterLoop_moves serv.filters hh
  · intro r hr hmoves
    exact (handleRequest_moves_iff hmoves).mpr (h c₀ hc₀ r hr)

/-- In every run in which the requests open their files, the loop of `handleWrite` ends
in every state reached and during every further event. -/
theorem writeLoop_ends {es : List (Host × Event)}
    (hrun : RunWhere serv.step serv.OpensFiles start es c) :
    c.handleWrite ≠ .error .endlessLoop ∧
      ∀ e, serv.OpensFiles c e → serv.step c e ≠ .error .endlessLoop := by
  have hstart : start.Movable := by
    intro id s hs
    cases hs
  have hmoves : c.Movable := by
    refine hrun.invariant Movable ?_ hstart
    intro d e d' hd hopens hst
    exact (step_avoids hd hopens.movesOn).result hst
  constructor
  · exact (handleWrite_avoids hmoves).ne
  · intro e hopens
    exact (step_avoids hmoves hopens.movesOn).ne

/-- A host with the file `/srv/f`, which is opened as `file`. -/
def fileHost (file : Option File) : Host where
  exist filename := filename = bytes "/srv/f"
  isRegularFile filename := filename = bytes "/srv/f"
  isDirectory _ := false
  create filename := if filename = bytes "/srv/f" then file else none
  fileSize _ := 1
  lastModified _ := []
  formatExpires _ := []
  indet _ := 0

/-- `GET /static/f` on stream 1. -/
def fileRequest (host : Host) : List (Host × Event) :=
  (greeting (fileService.env host) ++ incoming (fileService.env host) frameTypeHeaders 5 1
    ([0x82, 0x86, 0x04, 0x09] ++ bytes "/static/f" ++ [0x81])).map fun e => (host, e.2)

/-- The file is opened and sent: two further writes end the stream. -/
theorem writeLoop_ends_download : ∃ c, RunWhere fileService.step fileService.OpensFiles start
    (fileRequest (fileHost (some ⟨[7], 0⟩)) ++
      [(fileHost none, .written 0), (fileHost none, .written 0)]) c ∧
    c.handleWrite ≠ .error .endlessLoop ∧ c.streams.size = 0 := by
  obtain ⟨c, hrun, hc⟩ := exists_run_of_any fileService.step fileService.OpensFiles start
    (fileRequest (fileHost (some ⟨[7], 0⟩)) ++
      [(fileHost none, .written 0), (fileHost none, .written 0)])
    (fun c : HttpConnectionEx => c.streams.size = 0) (by decide +kernel)
  exact ⟨c, hrun, (writeLoop_ends hrun).1, by simpa using hc⟩

/-- The file is there but cannot be opened: after the header of the response the loop
never ends. -/
theorem unopenedFile_loops : ∃ c, RunWhere fileService.step Unrestricted start
    (fileRequest (fileHost none)) c ∧
    fileService.step c (fileHost none, .written 0) = .error .endlessLoop := by
  obtain ⟨c, hrun, hc⟩ := exists_run_of_any fileService.step Unrestricted start
    (fileRequest (fileHost none))
    (fun c : HttpConnectionEx =>
      match fileService.step c (fileHost none, .written 0) with
      | .error f => f = .endlessLoop
      | .ok _ => false) (by decide +kernel)
  refine ⟨c, hrun, ?_⟩
  cases hst : fileService.step c (fileHost none, .written 0) with
  | error f =>
    rw [hst] at hc
    simpa using hc
  | ok d => simp [hst] at hc

end HttpServiceImpl
end Sese.Service.Http
