import Sese.Service.Http.HttpServiceImpl
import Sese.Util.Scan

/-!
# The body of a download

What a client expects to receive for the ranges of a file: the octets of a single range, or a
multipart body with one part for each of several. Its length is the content length that
`handleRequest` has counted.
-/
namespace Sese.Net.Http

theorem number2StringLoop_add (num length : ℕ) :
    number2StringLoop num length = number2StringLoop num 0 + length := by
  induction num using Nat.strongRecOn generalizing length with
  | ind num ih =>
    rw [number2StringLoop, number2StringLoop.eq_def num 0]
    split_ifs with hmore
    · have hless : num / 10 < num := by omega
      rw [ih _ hless (length + 1), ih _ hless (0 + 1)]
      omega
    · omega

theorem number2StringLength_eq (num : ℕ) : number2StringLength num = (toDecimal num).length := by
  induction num using Nat.strongRecOn with
  | ind num ih =>
    rw [toDecimal_eq]
    unfold number2StringLength at ih ⊢
    split_ifs with hzero hdigit hdigit
    · rfl
    · omega
    · rw [number2StringLoop, if_neg (by omega)]
      rfl
    · have hrest := ih (num / 10) (by omega)
      rw [if_neg (by omega)] at hrest
      rw [number2StringLoop, if_pos (by omega), number2StringLoop_add, hrest, List.length_append]
      rfl

theorem Range.toStringLength_eq (range : Range) (total : ℕ) :
    range.toStringLength total = (range.toString total).length := by
  simp only [Range.toStringLength, Range.toString, number2StringLength_eq, List.length_append]

end Sese.Net.Http

namespace Sese.Service.Http

open Foundation Sese.Net.Http

def rangeOctets (data : Bytes) (range : Range) : Bytes := (data.drop range.start).take range.len

def crlf : Bytes := bytes "\r\n"

/-- The delimiter, the fields, and the octets of one range. -/
def bodyPart (contentType data : Bytes) (range : Range) : Bytes :=
  bytes "--" ++ HttpConnectionEx.httpdBoundary ++ crlf ++
    bytes "content-type: " ++ contentType ++ crlf ++
    bytes "content-range: " ++ range.toString data.length ++ crlf ++ crlf ++ rangeOctets data range

def closeDelimiter : Bytes := bytes "--" ++ HttpConnectionEx.httpdBoundary ++ bytes "--" ++ crlf

def multipart (contentType data : Bytes) (ranges : List Range) : Bytes :=
  (ranges.flatMap fun range => bodyPart contentType data range ++ crlf) ++ closeDelimiter

def downloadBody (contentType data : Bytes) : List Range → Bytes
  | [range] => rangeOctets data range
  | ranges => multipart contentType data ranges

def HoldsRange (data : Bytes) (range : Range) : Prop := range.start + range.len ≤ data.length

instance (data : Bytes) (range : Range) : Decidable (HoldsRange data range) :=
  inferInstanceAs (Decidable (_ ≤ _))

theorem length_rangeOctets {data : Bytes} {range : Range} (h : HoldsRange data range) :
    (rangeOctets data range).length = range.len := by
  unfold HoldsRange at h
  simp only [rangeOctets, List.length_take, List.length_drop]
  omega

theorem length_bodyPart {h : Handleable} {data : Bytes} {range : Range}
    (hsize : h.filesize = data.length) (hholds : HoldsRange data range) :
    (bodyPart h.contentType data range ++ crlf).length = partLength h range := by
  have hcrlf : crlf.length = 2 := by decide
  have hdashes : (bytes "--").length = 2 := by decide
  have htype : (bytes "content-type: ").length = (bytes "Content-Type: ").length := by decide
  have hrange : (bytes "content-range: ").length = (bytes "Content-Range: ").length := by decide
  simp only [bodyPart, partLength, List.length_append, hcrlf, hdashes, htype, hrange,
    length_rangeOctets hholds, Range.toStringLength_eq, hsize]
  omega

theorem length_multipart {h : Handleable} {data : Bytes} {ranges : List Range}
    (hsize : h.filesize = data.length) (hholds : ∀ range ∈ ranges, HoldsRange data range) :
    (multipart h.contentType data ranges).length =
      (ranges.map (partLength h)).sum + 6 + HttpConnectionEx.httpdBoundary.length := by
  have hparts : ranges.map (fun range => (bodyPart h.contentType data range ++ crlf).length) =
      ranges.map (partLength h) := by
    apply List.map_congr_left
    intro range hrange
    exact length_bodyPart hsize (hholds range hrange)
  have hclosing : closeDelimiter.length = 6 + HttpConnectionEx.httpdBoundary.length := by decide
  rw [multipart, List.length_append, List.length_flatMap, hparts, hclosing, Nat.add_assoc]

namespace HttpServiceImpl

variable {serv : HttpServiceImpl} {host : Host} {h : Handleable} {filename : Bytes} {file : File}

/-- The name of the file that `handleRequest` looks for, if it looks for one. -/
def requested (serv : HttpServiceImpl) (h : Handleable) : Option Bytes :=
  match serv.mounted h with
  | some m => some (mountedFile m h.request.uri)
  | none => if h.connType = .fileDownload then some [] else none

theorem handleRequest_requested (hname : serv.requested h = some filename) :
    serv.handleRequest host h =
      serv.uniHandle (serv.download host filename { h with connType := .fileDownload }) := by
  unfold requested at hname
  unfold handleRequest
  cases hmounted : serv.mounted h with
  | some m =>
    rw [hmounted] at hname
    cases hname
    rfl
  | none =>
    rw [hmounted] at hname
    dsimp only at hname ⊢
    split_ifs at hname with htype
    cases hname
    have hsame : { h with connType := .fileDownload } = h := by rw [← htype]
    rw [hsame, htype]

/-- The request is answered with ranges of this file, which has their octets. -/
structure Serves (serv : HttpServiceImpl) (host : Host) (h : Handleable) (filename : Bytes)
    (file : File) : Prop where
  requested : serv.requested h = some filename
  opened : host.create filename = some file
  size : host.fileSize filename = file.data.length
  accepted : (serv.download host filename { h with connType := .fileDownload }).response.code = 200 ∨
    (serv.download host filename { h with connType := .fileDownload }).response.code = 206
  kept : (serv.handleRequest host h).connType = .fileDownload
  holds : ∀ range ∈ (serv.handleRequest host h).ranges, HoldsRange file.data range

/-- What `handleRequest` has stored in a stream that it answers with ranges of a file. -/
structure Offers (file : File) (h : Handleable) : Prop where
  connType : h.connType = .fileDownload
  opened : h.file = some file
  size : h.filesize = file.data.length
  first : h.rangeIterator = 0
  ranges : h.ranges ≠ []

/-- The length of the body as `handleRequest` has counted it. -/
def countedLength (h : Handleable) : ℕ :=
  match h.ranges with
  | [range] => range.len
  | ranges => ((ranges.map (partLength h)).sum + 6 + HttpConnectionEx.httpdBoundary.length) % 2 ^ 64

theorem countedLength_multipart (hmany : ∀ range, h.ranges ≠ [range]) :
    countedLength h =
      ((h.ranges.map (partLength h)).sum + 6 + HttpConnectionEx.httpdBoundary.length) % 2 ^ 64 := by
  unfold countedLength
  split
  · rename_i range hone
    exact absurd hone (hmany range)
  · rfl

def contentLength (response : Response) : Bytes := response.header.get (bytes "content-length") []

theorem contentLength_set_self (h : Handleable) (value : Bytes) :
    contentLength (h.set "content-length" value).response = value := by
  simp [contentLength, Handleable.set, Header.get, Header.set]

theorem contentLength_set (h : Handleable) {key : String} (value : Bytes)
    (hkey : foldCase (bytes "content-length") ≠ foldCase (bytes key)) :
    contentLength (h.set key value).response = contentLength h.response := by
  unfold contentLength Handleable.set Header.get Header.set
  rw [OrdMap.find?_insert_of_ne _ _ hkey]

theorem chooseRanges_refused (hrefused : (chooseRanges h).2 = false) :
    (chooseRanges h).1.response.code = 416 := by
  unfold chooseRanges at hrefused ⊢
  dsimp only at hrefused ⊢
  split at hrefused
  · cases hrefused
  · split_ifs at hrefused with hout
    rw [if_pos hout]
    rfl
  · split_ifs at hrefused with hout
    rw [if_pos hout]
    rfl

theorem chooseRanges_offers (htype : h.connType = .fileDownload) (hopened : h.file = some file)
    (hsize : h.filesize = file.data.length) (haccepted : (chooseRanges h).2 = true) :
    Offers file (chooseRanges h).1 ∧
      contentLength (chooseRanges h).1.response = toDecimal (countedLength (chooseRanges h).1) := by
  unfold chooseRanges at haccepted ⊢
  dsimp only at haccepted ⊢
  split at haccepted
  · exact ⟨⟨htype, hopened, hsize, rfl, List.cons_ne_nil _ _⟩, contentLength_set_self _ _⟩
  · split_ifs at haccepted with hout
    rw [if_neg hout]
    exact ⟨⟨htype, hopened, hsize, rfl, List.cons_ne_nil _ _⟩, contentLength_set_self _ _⟩
  · rename_i hne hmany
    split_ifs at haccepted with hout
    rw [if_neg hout]
    refine ⟨⟨htype, hopened, hsize, rfl, hne⟩, ?_⟩
    rw [countedLength_multipart hmany]
    exact contentLength_set_self _ _

theorem chooseType_same (serv : HttpServiceImpl) (filename : Bytes) (h : Handleable) :
    (serv.chooseType filename h).connType = h.connType ∧
      (serv.chooseType filename h).file = h.file := by
  unfold chooseType
  cases pathExtension filename with
  | none => exact ⟨rfl, rfl⟩
  | some ext =>
    dsimp only
    cases serv.contentTypes ext <;> exact ⟨rfl, rfl⟩

theorem download_offers (htype : h.connType = .fileDownload)
    (hopened : host.create filename = some file) (hsize : host.fileSize filename = file.data.length)
    (haccepted : (serv.download host filename h).response.code = 200 ∨
      (serv.download host filename h).response.code = 206) :
    Offers file (serv.download host filename h) ∧
      contentLength (serv.download host filename h).response =
        toDecimal (countedLength (serv.download host filename h)) := by
  unfold download at haccepted ⊢
  dsimp only at haccepted ⊢
  split_ifs at haccepted ⊢ with hmissing hfailed hchosen
  · simp [Handleable.setLength, Handleable.setCode, Handleable.set] at haccepted
  · simp [Handleable.setLength, Handleable.setCode, Handleable.set] at haccepted
  · obtain ⟨hkeeps, hfile⟩ := chooseType_same serv filename { h with file := host.create filename }
    generalize serv.chooseType filename { h with file := host.create filename } = h₁ at *
    obtain ⟨hoffers, hlength⟩ := chooseRanges_offers
      (h := { h₁ with filesize := host.fileSize filename }) (hkeeps.trans htype)
      (hfile.trans hopened) hsize hchosen
    refine ⟨⟨hoffers.connType, hoffers.opened, hoffers.size, hoffers.first, hoffers.ranges⟩, ?_⟩
    rw [contentLength_set _ _ (by decide), hlength]
    rfl
  · rw [chooseRanges_refused (by simpa using hchosen)] at haccepted
    simp at haccepted

/-- A tail filter that passes a request on leaves the content length alone. -/
def LeavesLength (serv : HttpServiceImpl) : Prop :=
  ∀ tailFilter ∈ serv.tailFilter, ∀ request response, (tailFilter request response).1 = false →
    contentLength (tailFilter request response).2.2 = contentLength response

theorem uniFields_rest (serv : HttpServiceImpl) (h : Handleable) :
    ∃ response keepalive, serv.uniFields h = { h with response := response, keepalive := keepalive } ∧
      contentLength response = contentLength h.response := by
  have hset : ∀ key ∈ ["connection", "keep-alive", "server", "accept-range"],
      ∀ (h : Handleable) value, contentLength (h.set key value).response =
        contentLength h.response := by
    have hkeys : ∀ key ∈ ["connection", "keep-alive", "server", "accept-range"],
        foldCase (bytes "content-length") ≠ foldCase (bytes key) := by decide
    intro key hkey h value
    exact contentLength_set h value (hkeys key hkey)
  refine ⟨(serv.uniFields h).response, (serv.uniFields h).keepalive, ?_, ?_⟩
  · unfold uniFields
    dsimp only
    split_ifs <;> rfl
  · unfold uniFields
    dsimp only
    rw [hset "accept-range" (by simp), hset "server" (by simp)]
    split_ifs
    · rw [hset "keep-alive" (by simp), hset "connection" (by simp)]
    · rfl
    · rfl

theorem uniHandle_rest (hkept : (serv.uniHandle h).connType = .fileDownload) :
    ∃ request response keepalive, serv.uniHandle h =
        { h with request := request, response := response, keepalive := keepalive } ∧
      (serv.LeavesLength → contentLength response = contentLength h.response) := by
  obtain ⟨response, keepalive, hfields, hlength⟩ := uniFields_rest serv h
  unfold uniHandle at hkept ⊢
  dsimp only at hkept ⊢
  rw [hfields] at hkept ⊢
  cases hfilter : serv.tailFilter with
  | none => exact ⟨h.request, response, keepalive, rfl, fun _ => hlength⟩
  | some tailFilter =>
    rw [hfilter] at hkept
    dsimp only at hkept ⊢
    split_ifs at hkept ⊢ with hcode htaken
    · exact ⟨h.request, response, keepalive, rfl, fun _ => hlength⟩
    · cases hkept
    · refine ⟨_, _, keepalive, rfl, ?_⟩
      intro hleaves
      have hsame := hleaves tailFilter (by rw [hfilter]; rfl) h.request response (by simpa using htaken)
      exact hsame.trans hlength

theorem Serves.offers (hserves : Serves serv host h filename file) :
    Offers file (serv.handleRequest host h) ∧ (serv.LeavesLength →
      contentLength (serv.handleRequest host h).response =
        toDecimal (countedLength (serv.handleRequest host h))) := by
  obtain ⟨hoffers, hlength⟩ := download_offers rfl hserves.opened hserves.size hserves.accepted
  have hkept := hserves.kept
  rw [handleRequest_requested hserves.requested] at hkept ⊢
  generalize serv.download host filename { h with connType := .fileDownload } = d at *
  obtain ⟨request, response, keepalive, hsame, hleaves⟩ := uniHandle_rest hkept
  rw [hsame]
  refine ⟨⟨hoffers.connType, hoffers.opened, hoffers.size, hoffers.first, hoffers.ranges⟩, ?_⟩
  intro hfilter
  exact (hleaves hfilter).trans hlength

/-- The counted length is the one of the body. -/
theorem Offers.countedLength_eq (hoffers : Offers file h)
    (hholds : ∀ range ∈ h.ranges, HoldsRange file.data range)
    (hfits : (downloadBody h.contentType file.data h.ranges).length < 2 ^ 64) :
    countedLength h = (downloadBody h.contentType file.data h.ranges).length := by
  unfold countedLength
  unfold downloadBody at hfits ⊢
  split
  · rename_i range hone
    rw [length_rangeOctets (hholds range (by simp [hone]))]
  · rename_i hmany
    split at hfits
    · rename_i range hone
      exact absurd hone (hmany range)
    · rw [length_multipart hoffers.size hholds] at hfits ⊢
      exact Nat.mod_eq_of_lt hfits

end HttpServiceImpl
end Sese.Service.Http
