import Sese.Foundation.Runs
import Sese.Service.Http.DownloadFrames
import Sese.Service.Http.HttpConnection

/-!
# The writes of several ranges

`HttpConnection::writeRanges` for a connection of HTTP/1. It writes one block, and the callback of
the block goes on: behind the fields of a part it seeks the file and begins the range, behind
octets of the range it calls `writeRanges` again.
-/
namespace Sese.Service.Http

open Foundation
open Sese.Net.Http

namespace HttpConnection

inductive Callback
  | beginRange | writeRanges | checkKeepalive
  deriving DecidableEq, Repr

/-- A block that is being written, or the end of the writes. -/
inductive RangeWrite
  | block (c : HttpConnection) (data : Bytes) (callback : Callback)
  | ended (c : HttpConnection)
  | disponsed
  deriving DecidableEq

/-- `range_iterator += 1`, while the block is being written. -/
def RangeWrite.advance : RangeWrite → RangeWrite
  | .block c data callback => .block { c with rangeIterator := c.rangeIterator + 1 } data callback
  | write => write

def delimiter (i : ℕ) : Bytes := if i = 0 then bytes "--" else bytes "\r\n--"

def subheader (c : HttpConnection) (i : ℕ) (range : Range) : Bytes :=
  delimiter i ++ HttpConnectionEx.httpdBoundary ++ bytes "\r\n" ++
    bytes "content-type: " ++ c.contentType ++ bytes "\r\n" ++
    bytes "content-range: " ++ range.toString c.filesize ++ bytes "\r\n\r\n"

/-- A part is begun. The lines are asserted to fit into the buffer, which they are copied to. -/
def writeSubheader (c : HttpConnection) : Except Fault RangeWrite :=
  match c.ranges[c.rangeIterator]? with
  | none => .error .nullPointer
  | some range =>
    let subheader := c.subheader c.rangeIterator range
    if subheader.length ≤ mtuValue then .ok (.block c subheader .beginRange)
    else .error .overflow

/-- `writeRanges`. The closing delimiter fits into the buffer. -/
def writeRanges (c : HttpConnection) : Except Fault RangeWrite :=
  if c.realLength ≥ c.expectLength then
    if c.rangeIterator = 0 then c.writeSubheader
    else if c.rangeIterator = c.ranges.length then
      .ok (.block c (bytes "\r\n--" ++ HttpConnectionEx.httpdBoundary ++ bytes "--\r\n") .checkKeepalive)
    else c.writeSubheader
  else
    match c.file with
    | none => .error .nullPointer
    | some file =>
      let l := min (c.expectLength - c.realLength) mtuValue
      let (data, file) := file.read l
      .ok (.block { c with realLength := c.realLength + l, file := some file } data .writeRanges)

/-- The callback of the lines before a range. The position is cast to a signed integer, and a
negative one is refused. -/
def beginRange (c : HttpConnection) : Except Fault RangeWrite :=
  match c.file, c.ranges[c.rangeIterator]? with
  | some file, some range =>
    if range.start ≥ 2 ^ 63 then .ok .disponsed
    else do
      let write ← writeRanges { c with
        file := some { file with pos := range.start }
        expectLength := range.len
        realLength := 0 }
      return write.advance
  | _, _ => .error .nullPointer

def call (c : HttpConnection) : Callback → Except Fault RangeWrite
  | .beginRange => c.beginRange
  | .writeRanges => c.writeRanges
  | .checkKeepalive => .ok (.ended c)

/-- The writes so far: the octets of the blocks that were written, and what is being written. -/
structure RangeWrites where
  sent : Bytes := []
  write : RangeWrite
  deriving DecidableEq

/-- The write of the block is complete, with or without an error. -/
def complete (w : RangeWrites) (error : Bool) : Except Fault RangeWrites :=
  match w.write with
  | .block c data callback =>
    if error then .ok { w with write := .disponsed }
    else do
      let write ← c.call callback
      return { sent := w.sent ++ data, write := write }
  | _ => .error .notOutstanding

/-- The branch of `writeHeader` for several ranges. -/
def beginRanges (c : HttpConnection) : Except Fault RangeWrites := do
  let write ← writeRanges { c with expectLength := 0, realLength := 0 }
  return { write := write }

variable {c : HttpConnection} {data body : Bytes} {callback : Callback} {range : Range}

/-- When no write fails, the writes end, and this is what they send. -/
def Ends (write : RangeWrite) (body : Bytes) : Prop :=
  ∀ sent, ∃ errors w c, RunWhere complete (fun _ error => error = false) ⟨sent, write⟩ errors w ∧
    w.sent = sent ++ body ∧ w.write = .ended c

theorem ends_ended (c : HttpConnection) : Ends (.ended c) [] :=
  fun sent => ⟨[], _, c, .nil _, (List.append_nil sent).symm, rfl⟩

theorem Ends.block {write : RangeWrite} (hcall : c.call callback = .ok write) (h : Ends write body) :
    Ends (.block c data callback) (data ++ body) := by
  intro sent
  obtain ⟨errors, w, c', hrun, hsent, hended⟩ := h (sent ++ data)
  have hstep : complete ⟨sent, .block c data callback⟩ false = .ok ⟨sent ++ data, write⟩ := by
    rw [complete]
    dsimp only
    rw [if_neg Bool.false_ne_true, hcall]
    rfl
  exact ⟨false :: errors, w, c', .cons rfl hstep hrun, by rw [hsent, List.append_assoc], hended⟩

/-- The rest of a range, in blocks; induction on its length. -/
theorem ends_rest {pos : ℕ} (hfile : c.file = some ⟨data, pos⟩) (hle : c.realLength ≤ c.expectLength)
    (hfits : c.expectLength - c.realLength ≤ data.length - pos)
    (hnext : ∀ pos, ∃ write, writeRanges { c with
      file := some ⟨data, pos⟩, realLength := c.expectLength } = .ok write ∧ Ends write body) :
    ∃ write, writeRanges c = .ok write ∧
      Ends write ((data.drop pos).take (c.expectLength - c.realLength) ++ body) := by
  induction hm : c.expectLength - c.realLength using Nat.strongRecOn generalizing c pos with
  | ind m ih =>
    subst hm
    by_cases hdone : c.realLength = c.expectLength
    · have hsame : { c with file := some ⟨data, pos⟩, realLength := c.expectLength } = c := by
        obtain ⟨h, expectLength, realLength⟩ := c
        dsimp only at hfile hdone ⊢
        rw [← hfile, hdone]
      obtain ⟨write, hwrite, hends⟩ := hnext pos
      rw [hsame] at hwrite
      rw [hdone, Nat.sub_self, List.take_zero, List.nil_append]
      exact ⟨write, hwrite, hends⟩
    · have hmtu : 0 < mtuValue := by decide
      obtain ⟨l, hl⟩ : ∃ l, l = min (c.expectLength - c.realLength) mtuValue := ⟨_, rfl⟩
      have hlen : ((data.drop pos).take l).length = l := by
        rw [List.length_take, List.length_drop]
        omega
      have hblock : writeRanges c = .ok (.block { c with
          realLength := c.realLength + l, file := some ⟨data, pos + l⟩ }
          ((data.drop pos).take l) .writeRanges) := by
        rw [writeRanges, if_neg (by omega), hfile]
        dsimp only
        rw [← hl, File.read, hlen]
      obtain ⟨write, hwrite, hends⟩ := ih (c.expectLength - (c.realLength + l)) (by omega)
        (c := { c with realLength := c.realLength + l, file := some ⟨data, pos + l⟩ }) rfl
        (by dsimp only; omega) (by dsimp only; omega) hnext rfl
      have hsplit : c.expectLength - c.realLength = l + (c.expectLength - (c.realLength + l)) := by
        omega
      refine ⟨_, hblock, ?_⟩
      rw [hsplit, List.take_add, List.drop_drop, List.append_assoc]
      exact Ends.block hwrite hends

theorem advance_writeRanges (h : c.realLength < c.expectLength) :
    (do
      let write ← writeRanges c
      return write.advance) = writeRanges { c with rangeIterator := c.rangeIterator + 1 } := by
  rw [writeRanges, writeRanges, if_neg (Nat.not_le_of_lt h), if_neg (Nat.not_le_of_lt h)]
  cases c.file with
  | none => rfl
  | some file => rfl

theorem beginRange_eq {pos : ℕ} (hfile : c.file = some ⟨data, pos⟩)
    (hrange : c.ranges[c.rangeIterator]? = some range) (hstart : range.start < 2 ^ 63)
    (hlen : 1 ≤ range.len) :
    c.beginRange = writeRanges { c with
      file := some ⟨data, range.start⟩
      expectLength := range.len
      realLength := 0
      rangeIterator := c.rangeIterator + 1 } := by
  rw [beginRange, hfile, hrange]
  dsimp only
  rw [if_neg (by omega)]
  exact advance_writeRanges hlen

theorem subheader_append (hsize : c.filesize = data.length) (i : ℕ) (range : Range) :
    c.subheader i range ++ rangeOctets data range =
      (if i = 0 then [] else crlf) ++ bodyPart c.contentType data range := by
  have hempty : bytes "\r\n\r\n" = crlf ++ crlf := by decide
  have hcrlf : bytes "\r\n" = crlf := rfl
  have hdelimiter : delimiter i = (if i = 0 then [] else crlf) ++ bytes "--" := by
    rw [delimiter]
    split_ifs
    · rfl
    · decide
  rw [subheader, bodyPart, hdelimiter, hempty, hcrlf, hsize]
  simp only [List.append_assoc]

/-- What has to be so for the ranges of a file with these octets to be sent: the lines before each
of them fit into the buffer. -/
structure Servable (data : Bytes) (c : HttpConnection) : Prop where
  size : c.filesize = data.length
  many : 2 ≤ c.ranges.length
  ranges : ∀ range ∈ c.ranges, 1 ≤ range.len ∧ HoldsRange data range
  lines : ∀ i (hi : i < c.ranges.length), (c.subheader i c.ranges[i]).length ≤ mtuValue

theorem ends_behind (h : Servable data c) (hoffset : data.length < 2 ^ 63)
    (hfile : ∃ pos, c.file = some ⟨data, pos⟩) (hdone : c.realLength ≥ c.expectLength)
    (hi : c.rangeIterator ≤ c.ranges.length) :
    ∃ write, writeRanges c = .ok write ∧
      Ends write (HttpConnectionEx.behind c.contentType data c.ranges c.rangeIterator) := by
  induction hn : c.ranges.length - c.rangeIterator generalizing c with
  | zero =>
    have hlast : c.rangeIterator = c.ranges.length := by omega
    have hmany := h.many
    rw [hlast, HttpConnectionEx.behind_end (by omega) (List.ne_nil_of_length_pos (by omega))]
    refine ⟨.block c HttpConnectionEx.endBoundary .checkKeepalive, ?_, ?_⟩
    · rw [writeRanges, if_pos hdone, if_neg (by omega), if_pos hlast]
      rfl
    · rw [← List.append_nil HttpConnectionEx.endBoundary]
      exact Ends.block rfl (ends_ended c)
  | succ n ih =>
    obtain ⟨range, hrange⟩ : ∃ range, c.ranges[c.rangeIterator]? = some range :=
      ⟨_, List.getElem?_eq_getElem (by omega)⟩
    obtain ⟨hlt, hget⟩ := List.getElem?_eq_some_iff.mp hrange
    have hfits := h.lines c.rangeIterator hlt
    rw [hget] at hfits
    obtain ⟨hlen, hholds⟩ := h.ranges range (List.mem_of_getElem? hrange)
    rw [HoldsRange] at hholds
    obtain ⟨pos, hfile⟩ := hfile
    have hmany := h.many
    -- the lines before the range
    have hlines : writeRanges c =
        .ok (.block c (c.subheader c.rangeIterator range) .beginRange) := by
      have hsubheader : c.writeSubheader =
          .ok (.block c (c.subheader c.rangeIterator range) .beginRange) := by
        rw [writeSubheader, hrange]
        exact if_pos hfits
      rw [writeRanges, if_pos hdone, if_neg (by omega : ¬ c.rangeIterator = c.ranges.length), hsubheader,
        ite_self]
    -- its octets, and what is behind them
    have hnext : ∀ pos, ∃ write, writeRanges { c with
        file := some ⟨data, pos⟩
        expectLength := range.len
        realLength := range.len
        rangeIterator := c.rangeIterator + 1 } = .ok write ∧
          Ends write (HttpConnectionEx.behind c.contentType data c.ranges (c.rangeIterator + 1)) := by
      intro pos
      exact ih ⟨h.size, h.many, h.ranges, h.lines⟩ ⟨pos, rfl⟩ le_rfl (by dsimp only; omega)
        (by dsimp only; omega)
    obtain ⟨write, hwrite, hends⟩ := ends_rest (c := { c with
        file := some ⟨data, range.start⟩
        expectLength := range.len
        realLength := 0
        rangeIterator := c.rangeIterator + 1 }) rfl (Nat.zero_le _) (by dsimp only; omega) hnext
    refine ⟨_, hlines, ?_⟩
    rw [HttpConnectionEx.behind_cons (by omega) hrange, ← List.append_assoc, ← subheader_append h.size,
      List.append_assoc]
    exact Ends.block ((beginRange_eq hfile hrange (by omega) hlen).trans hwrite) hends

/-- When no write fails, the writes of the ranges end, and `body` was written. -/
def Sends (c : HttpConnection) (body : Bytes) : Prop :=
  ∃ start errors w c', beginRanges c = .ok start ∧
    RunWhere complete (fun _ error => error = false) start errors w ∧
    w.sent = body ∧ w.write = .ended c'

theorem sends_multipart (h : Servable data c) (hoffset : data.length < 2 ^ 63)
    (hfile : ∃ pos, c.file = some ⟨data, pos⟩) (hfirst : c.rangeIterator = 0) :
    c.Sends (multipart c.contentType data c.ranges) := by
  have hmany := h.many
  have hmultipart : multipart c.contentType data c.ranges =
      HttpConnectionEx.behind c.contentType data c.ranges c.rangeIterator := by
    rw [hfirst, HttpConnectionEx.behind_zero]
    obtain ⟨first, second, others, hranges⟩ : ∃ first second others,
        c.ranges = first :: second :: others := by
      match hranges : c.ranges, hmany with
      | first :: second :: others, _ => exact ⟨first, second, others, rfl⟩
    rw [hranges]
    rfl
  obtain ⟨write, hwrite, hends⟩ := ends_behind (c := { c with expectLength := 0, realLength := 0 })
    ⟨h.size, h.many, h.ranges, h.lines⟩ hoffset hfile le_rfl (by dsimp only; omega)
  obtain ⟨errors, w, c', hrun, hsent, hended⟩ := hends []
  rw [hmultipart]
  exact ⟨⟨[], write⟩, errors, w, c', bind_eq_ok.mpr ⟨write, hwrite, rfl⟩, hrun, hsent, hended⟩

/-- The length that `handleRequest` announces for these ranges. -/
theorem contentLength_chooseRanges {h : Handleable} (hsize : h.filesize = data.length)
    (hmany : 2 ≤ (Range.parse (h.request.header.get (bytes "Range") []) h.filesize).length)
    (hholds : ∀ range ∈ Range.parse (h.request.header.get (bytes "Range") []) h.filesize,
      HoldsRange data range) :
    HttpServiceImpl.contentLength (chooseRanges h).1.response = toDecimal
      ((multipart h.contentType data
        (Range.parse (h.request.header.get (bytes "Range") []) h.filesize)).length % 2 ^ 64) := by
  have hinside : (Range.parse (h.request.header.get (bytes "Range") []) h.filesize).any
      (outOfFile h.filesize) = false := by
    rw [List.any_eq_false]
    intro range hrange
    have hend := hholds range hrange
    have hmod := Nat.mod_le (range.start + range.len) (2 ^ 64)
    rw [HoldsRange] at hend
    simp only [outOfFile, decide_eq_true_eq]
    omega
  unfold chooseRanges
  dsimp only
  split
  · rename_i hnil
    rw [hnil] at hmany
    exact absurd hmany (by decide)
  · rename_i range hone
    rw [hone] at hmany
    exact absurd hmany (by simp)
  · rw [if_neg (by rw [hinside]; exact Bool.false_ne_true), length_multipart hsize hholds]
    exact HttpServiceImpl.contentLength_set_self _ _

/-- The ranges are sent as a multipart body, whose length is the one that was announced. -/
theorem writeRanges_sends {file : File} (hfile : c.file = some file) (hfirst : c.rangeIterator = 0)
    (h : Servable file.data c) (hoffset : file.data.length < 2 ^ 63) :
    c.Sends (multipart c.contentType file.data c.ranges) ∧
      ∀ h : Handleable, h.contentType = c.contentType → h.filesize = c.filesize →
        Range.parse (h.request.header.get (bytes "Range") []) h.filesize = c.ranges →
        HttpServiceImpl.contentLength (chooseRanges h).1.response =
          toDecimal ((multipart c.contentType file.data c.ranges).length % 2 ^ 64) := by
  constructor
  · exact sends_multipart h hoffset ⟨file.pos, hfile⟩ hfirst
  · intro handleable htype hsize hparse
    have hannounced := contentLength_chooseRanges (hsize.trans h.size)
      (by rw [hparse]; exact h.many) (by rw [hparse]; exact fun range hrange => (h.ranges range hrange).2)
    rwa [hparse, htype] at hannounced

/-- Two ranges of a file of two octets. -/
def pair (contentType : Bytes) : HttpConnection where
  contentType := contentType
  file := some ⟨bytes "hi", 0⟩
  filesize := 2
  ranges := [⟨0, 1⟩, ⟨1, 1⟩]

def whole : Range := ⟨0, 2 ^ 63 - 1⟩

theorem multipart_wraps (contentType : Bytes) (hdata : data.length = 2 ^ 63 - 1) :
    2 ^ 64 ≤ (multipart contentType data [whole, whole, whole]).length := by
  have hlen : (multipart contentType data [whole, whole, whole]).length = _ :=
    length_multipart (h := { contentType := contentType, filesize := data.length }) rfl
      (by simp [HoldsRange, whole, hdata])
  have hpart : 2 ^ 63 - 1 ≤ partLength { contentType := contentType, filesize := data.length }
      whole := Nat.le_add_left _ _
  rw [hlen, List.map_cons, List.map_cons, List.map_cons, List.map_nil, List.sum_cons, List.sum_cons,
    List.sum_cons, List.sum_nil]
  omega

/-- With a content type that fills the buffer the lines before a range do not fit, and the length of
a body may be more than a 64 bit number holds. -/
theorem pair_not_sent :
    ((2 ≤ (pair (List.replicate 1472 97)).ranges.length ∧
      ∀ range ∈ (pair (List.replicate 1472 97)).ranges, 1 ≤ range.len ∧
        HoldsRange (bytes "hi") range) ∧
      ¬ (pair (List.replicate 1472 97)).Sends (multipart (List.replicate 1472 97) (bytes "hi")
        (pair (List.replicate 1472 97)).ranges)) ∧
    ∃ data : Bytes, data.length = 2 ^ 63 - 1 ∧
      (multipart [] data [whole, whole, whole]).length ≠
        (multipart [] data [whole, whole, whole]).length % 2 ^ 64 := by
  constructor
  · have hfault : beginRanges (pair (List.replicate 1472 97)) = .error .overflow := by
      decide +kernel
    refine ⟨by decide, ?_⟩
    rintro ⟨start, errors, w, c', hstart, -⟩
    rw [hfault] at hstart
    cases hstart
  · have hlen : (List.replicate (2 ^ 63 - 1) (0 : UInt8)).length = 2 ^ 63 - 1 := List.length_replicate
    have hwraps := multipart_wraps [] hlen
    refine ⟨_, hlen, ?_⟩
    omega

theorem pair_sent : (pair (bytes "text/plain")).Sends
    (multipart (bytes "text/plain") (bytes "hi") (pair (bytes "text/plain")).ranges) := by
  have hfile : (pair (bytes "text/plain")).file = some ⟨bytes "hi", 0⟩ := rfl
  exact (writeRanges_sends hfile rfl ⟨rfl, by decide, by decide, by decide⟩ (by decide)).1

end HttpConnection

end Sese.Service.Http
