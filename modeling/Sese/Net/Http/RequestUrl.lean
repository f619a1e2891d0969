import Mathlib.Data.List.TakeWhile
import Sese.Net.Http.RequestHeader
import Sese.Util.Splitting

/-!
# The URL of a request header

`PercentConverter::encode`, `RequestHeader::getUrl` and `setUrl`, and that they undo each other.
-/
namespace Sese.Net.Http

open Foundation

def URL_EXCLUDE_CHARS : Bytes := bytes "!*\"'();:@&=+$,/?%#[] "

def getEncodeChar (ch : UInt8) : UInt8 := ch + (if ch ≤ 9 then 48 else 55)

def encodeOctet (b : UInt8) : Bytes :=
  if 128 ≤ b ∨ b ∈ URL_EXCLUDE_CHARS then [37, getEncodeChar (b / 0x10), getEncodeChar (b % 0x10)]
  else [b]

/-- `PercentConverter::encode`. -/
def percentEncode (src : Bytes) : Bytes := (cstr src).flatMap encodeOctet

structure RequestHeader where
  header : Header := {}
  type : RequestType := .get
  uri : Bytes := bytes "/"
  version : HttpVersion := .version11
  query_args : OrdMap byteOrder Bytes := .empty
  deriving DecidableEq

namespace RequestHeader

/-- The path that `getUrl` writes. -/
def getPath (uri : Bytes) : Bytes :=
  let dirs := split uri (bytes "/")
  if dirs = [[]] then bytes "/"
  else dirs.flatMap fun item => if item.isEmpty then [] else bytes "/" ++ percentEncode item

/-- One of the arguments that `getUrl` writes. -/
def queryItem (item : Bytes × Bytes) : Bytes :=
  percentEncode item.1 ++ (bytes "=" ++ percentEncode item.2)

def getUrl (request : RequestHeader) : Bytes :=
  getPath request.uri ++
    if request.query_args.entries = [] then []
    else bytes "?" ++ (bytes "&").intercalate (request.query_args.entries.map queryItem)

/-- What `setUrl` does with one item of the query. -/
def setItem (query_args : OrdMap byteOrder Bytes) (item : Bytes) : OrdMap byteOrder Bytes :=
  match split item (bytes "=") with
  | [key] => query_args.insert (percentDecode key) []
  | [key, value] => query_args.insert (percentDecode key) (percentDecode value)
  | _ => query_args

/-- `setUrl`. The arguments that are there already are kept. -/
def setUrl (request : RequestHeader) (request_url : Bytes) : RequestHeader :=
  match request_url.findIdx? fun b => b = 63 with
  | none => { request with uri := percentDecode request_url }
  | some pos => { request with
      uri := percentDecode (request_url.take pos)
      query_args := (split (request_url.drop (pos + 1)) (bytes "&")).foldl setItem request.query_args }

end RequestHeader

def Request.toRequestHeader (request : Request) : RequestHeader :=
  RequestHeader.setUrl
    { header := request.header, type := request.type, version := request.version } request.url

namespace RequestHeader

theorem setUrl_of_path {request : RequestHeader} {url : Bytes} (h : (63 : UInt8) ∉ url) :
    request.setUrl url = { request with uri := percentDecode url } := by
  rw [setUrl, findIdx?_octet_none h]

theorem setUrl_of_query {request : RequestHeader} {path : Bytes} (h : (63 : UInt8) ∉ path)
    (query : Bytes) : request.setUrl (path ++ 63 :: query) = { request with
      uri := percentDecode path
      query_args := (split query (bytes "&")).foldl setItem request.query_args } := by
  have hdrop : (path ++ 63 :: query).drop (path.length + 1) = query := by simp
  simp only [setUrl, findIdx?_octet h, List.take_left, hdrop]

end RequestHeader

def urlSeparators : Bytes := bytes " /?&=" ++ [0]

theorem mem_encodeOctet (b : UInt8) : b ≠ 0 →
    ∀ c ∈ encodeOctet b, c ∉ urlSeparators ∧ (c = 10 ∨ c = 13 → c = b) := by
  refine forall_octet (P := fun b => b ≠ 0 →
    ∀ c ∈ encodeOctet b, c ∉ urlSeparators ∧ (c = 10 ∨ c = 13 → c = b)) ?_ b
  decide +kernel

theorem hexChar_getEncodeChar (b : UInt8) :
    hexChar (getEncodeChar (b / 0x10)) = some (b / 0x10) ∧
      hexChar (getEncodeChar (b % 0x10)) = some (b % 0x10) ∧ b / 0x10 * 0x10 + b % 0x10 = b := by
  refine forall_octet (P := fun b => hexChar (getEncodeChar (b / 0x10)) = some (b / 0x10) ∧
    hexChar (getEncodeChar (b % 0x10)) = some (b % 0x10) ∧ b / 0x10 * 0x10 + b % 0x10 = b) ?_ b
  decide +kernel

theorem percent_mem_excluded : (37 : UInt8) ∈ URL_EXCLUDE_CHARS := by decide

theorem decodeLoop_of_ne {b : UInt8} (hb : b ≠ 37) (text : Bytes) :
    decodeLoop (b :: text) = (decodeLoop text).map (b :: ·) := by
  rw [decodeLoop.eq_def]
  exact if_neg hb

theorem decodeLoop_encodeOctet (b : UInt8) (text : Bytes) :
    decodeLoop (encodeOctet b ++ text) = (decodeLoop text).map (b :: ·) := by
  unfold encodeOctet
  split_ifs with hescaped
  · obtain ⟨hhigh, hlow, hvalue⟩ := hexChar_getEncodeChar b
    change decodeLoop (37 :: getEncodeChar (b / 0x10) :: getEncodeChar (b % 0x10) :: text) = _
    change (do
      let ch₁ ← hexChar (getEncodeChar (b / 0x10))
      let ch₀ ← hexChar (getEncodeChar (b % 0x10))
      let dest ← decodeLoop text
      return (ch₁ * 0x10 + ch₀) :: dest) = _
    simp only [hhigh, hlow, hvalue, Option.bind_eq_bind, Option.bind_some]
    cases decodeLoop text <;> rfl
  · have hb : b ≠ 37 := by
      rintro rfl
      exact hescaped (.inr percent_mem_excluded)
    exact decodeLoop_of_ne hb text

theorem decodeLoop_encode (text rest : Bytes) :
    decodeLoop (text.flatMap encodeOctet ++ rest) = (decodeLoop rest).map (text ++ ·) := by
  induction text with
  | nil => simp
  | cons b text ih =>
    rw [List.flatMap_cons, List.append_assoc, decodeLoop_encodeOctet, ih, Option.map_map]
    rfl

variable {text : Bytes}

theorem mem_percentEncode (h : (0 : UInt8) ∉ text) {c : UInt8} (hc : c ∈ percentEncode text) :
    c ∉ urlSeparators ∧ (c = 10 ∨ c = 13 → c ∈ text) := by
  rw [percentEncode, cstr_eq_self h, List.mem_flatMap] at hc
  obtain ⟨b, hb, hc⟩ := hc
  have hb0 : b ≠ 0 := by
    rintro rfl
    exact h hb
  obtain ⟨hsep, hline⟩ := mem_encodeOctet b hb0 c hc
  refine ⟨hsep, fun heq => ?_⟩
  rw [hline heq]
  exact hb

theorem not_mem_percentEncode (h : (0 : UInt8) ∉ text) {c : UInt8} (hc : c ∈ urlSeparators) :
    c ∉ percentEncode text :=
  fun hmem => (mem_percentEncode h hmem).1 hc

theorem percentDecode_percentEncode (h : (0 : UInt8) ∉ text) :
    percentDecode (percentEncode text) = text := by
  have hnul : (0 : UInt8) ∉ percentEncode text := not_mem_percentEncode h (by decide)
  rw [percentDecode, cstr_eq_self hnul, percentEncode, cstr_eq_self h]
  have hloop := decodeLoop_encode text []
  rw [List.append_nil] at hloop
  rw [hloop]
  exact List.append_nil text

theorem percentEncode_eq_nil_iff (h : (0 : UInt8) ∉ text) : percentEncode text = [] ↔ text = [] := by
  constructor
  · intro hnil
    rw [← percentDecode_percentEncode h, hnil]
    rfl
  · rintro rfl
    rfl

def joinPath (segments : List Bytes) : Bytes := segments.flatMap (47 :: ·)

/-- A path that starts with a slash and has no empty segment, or is the root. -/
def CleanPath (uri : Bytes) : Prop :=
  uri = bytes "/" ∨ ∃ segments, segments ≠ [] ∧ (∀ s ∈ segments, s ≠ [] ∧ (47 : UInt8) ∉ s) ∧
    uri = joinPath segments

theorem pieces_joinPath {first : Bytes} {segments : List Bytes}
    (h : ∀ s ∈ first :: segments, s ≠ [] ∧ (47 : UInt8) ∉ s) :
    pieces (first ++ joinPath segments) (bytes "/") = first :: segments := by
  induction segments generalizing first with
  | nil =>
    obtain ⟨hne, hslash⟩ := h first List.mem_cons_self
    rw [joinPath, List.flatMap_nil, List.append_nil]
    exact pieces_single hslash hne
  | cons s segments ih =>
    have hjoin : first ++ joinPath (s :: segments) = first ++ ([47] ++ (s ++ joinPath segments)) := by
      simp [joinPath]
    rw [hjoin]
    have hrest := ih fun t ht => h t (List.mem_cons_of_mem _ ht)
    rw [← hrest]
    exact pieces_append (h first List.mem_cons_self).2 _

theorem decodeLoop_slash (text : Bytes) : decodeLoop (47 :: text) = (decodeLoop text).map (47 :: ·) :=
  decodeLoop_of_ne (by decide) text

theorem decodeLoop_path {segments : List Bytes} (hnul : (0 : UInt8) ∉ joinPath segments) :
    decodeLoop (segments.flatMap fun s => bytes "/" ++ percentEncode s) =
      some (joinPath segments) := by
  induction segments with
  | nil => rfl
  | cons s segments ih =>
    simp only [joinPath, List.flatMap_cons, List.mem_append, List.mem_cons, not_or] at hnul ih ⊢
    have hslash : bytes "/" = [47] := rfl
    rw [percentEncode, cstr_eq_self hnul.1.2, List.append_assoc, hslash, List.singleton_append,
      decodeLoop_slash, decodeLoop_encode, ← hslash, ih hnul.2]
    rfl

def segments (uri : Bytes) : List Bytes := (pieces uri [47]).filter fun s => !s.isEmpty

theorem mem_segments {uri s : Bytes} (h : s ∈ segments uri) :
    s ≠ [] ∧ (47 : UInt8) ∉ s ∧ s ⊆ uri := by
  obtain ⟨hmem, hne⟩ := List.mem_filter.mp h
  obtain ⟨rest, -, huri⟩ := pieces_join 47 uri
  refine ⟨by simpa using hne, not_mem_pieces s hmem, ?_⟩
  intro b hb
  rw [huri]
  exact List.mem_append_left _ (mem_intercalate_of_mem hmem hb)

/-- The root is the only path with one piece that is empty. -/
theorem pieces_eq_root_iff {uri : Bytes} : pieces uri [47] = [[]] ↔ uri = bytes "/" := by
  constructor
  · intro h
    obtain ⟨rest, hrest, huri⟩ := pieces_join 47 uri
    rw [h, List.intercalate_singleton, List.nil_append] at huri
    rcases hrest with rfl | rfl
    · rw [huri] at h
      cases h
    · exact huri
  · rintro rfl
    rfl

theorem getPath_eq {uri : Bytes} (hnul : (0 : UInt8) ∉ uri) : RequestHeader.getPath uri =
    if uri = bytes "/" then bytes "/"
    else (segments uri).flatMap fun s => bytes "/" ++ percentEncode s := by
  have hsplit : split uri (bytes "/") = pieces uri [47] := split_eq_pieces hnul _
  simp only [RequestHeader.getPath, hsplit, pieces_eq_root_iff]
  split_ifs with hroot
  · rfl
  · rw [segments]
    generalize pieces uri [47] = dirs
    induction dirs with
    | nil => rfl
    | cons s dirs ih =>
      rw [List.flatMap_cons, ih, List.filter_cons]
      cases hs : s.isEmpty <;> simp

theorem mem_getPath {uri : Bytes} (hnul : (0 : UInt8) ∉ uri) {c : UInt8}
    (hc : c ∈ RequestHeader.getPath uri) :
    c = 47 ∨ c ∉ urlSeparators ∧ (c = 10 ∨ c = 13 → c ∈ uri) := by
  rw [getPath_eq hnul] at hc
  split_ifs at hc
  · exact .inl (List.mem_singleton.mp hc)
  · obtain ⟨s, hs, hc⟩ := List.mem_flatMap.mp hc
    obtain ⟨-, -, hsub⟩ := mem_segments hs
    rcases List.mem_append.mp hc with hc | hc
    · exact .inl (List.mem_singleton.mp hc)
    · obtain ⟨hsep, hline⟩ := mem_percentEncode (fun h0 => hnul (hsub h0)) hc
      exact .inr ⟨hsep, fun heq => hsub (hline heq)⟩

theorem nul_not_mem_joinPath {uri : Bytes} (hnul : (0 : UInt8) ∉ uri) :
    (0 : UInt8) ∉ joinPath (segments uri) := by
  intro h
  obtain ⟨s, hs, h0⟩ := List.mem_flatMap.mp h
  rcases List.mem_cons.mp h0 with h0 | h0
  · exact absurd h0 (by decide)
  · exact hnul ((mem_segments hs).2.2 h0)

/-- The path that is written is read as the path without its empty segments. -/
theorem percentDecode_getPath_eq {uri : Bytes} (hnul : (0 : UInt8) ∉ uri) :
    percentDecode (RequestHeader.getPath uri) =
      if uri = bytes "/" then bytes "/" else joinPath (segments uri) := by
  have hpath : (0 : UInt8) ∉ RequestHeader.getPath uri := by
    intro h0
    rcases mem_getPath hnul h0 with h0 | ⟨h0, -⟩
    · exact absurd h0 (by decide)
    · exact h0 (by decide)
  rw [percentDecode, cstr_eq_self hpath, getPath_eq hnul]
  split_ifs with hroot
  · decide
  · rw [decodeLoop_path (nul_not_mem_joinPath hnul)]
    rfl

theorem segments_joinPath {ss : List Bytes} (h : ∀ s ∈ ss, s ≠ [] ∧ (47 : UInt8) ∉ s) :
    segments (joinPath ss) = ss := by
  cases ss with
  | nil => rfl
  | cons s ss =>
    have hpieces : pieces ([] ++ ([47] ++ (s ++ joinPath ss))) [47] =
        [] :: pieces (s ++ joinPath ss) (bytes "/") := pieces_append List.not_mem_nil _
    rw [pieces_joinPath h] at hpieces
    have hjoin : joinPath (s :: ss) = [] ++ ([47] ++ (s ++ joinPath ss)) := by simp [joinPath]
    rw [segments, hjoin, hpieces, List.filter_cons_of_neg (by simp), List.filter_eq_self]
    intro t ht
    simpa using (h t ht).1

/-- Exactly the clean paths are read back. -/
theorem percentDecode_getPath_iff {uri : Bytes} (hstart : uri.head? = some 47)
    (hnul : (0 : UInt8) ∉ uri) :
    percentDecode (RequestHeader.getPath uri) = uri ↔ CleanPath uri := by
  rw [percentDecode_getPath_eq hnul]
  constructor
  · intro h
    split_ifs at h with hroot
    · exact .inl hroot
    · refine .inr ⟨segments uri, ?_, fun s hs => ?_, h.symm⟩
      · intro hnil
        rw [hnil] at h
        rw [← h] at hstart
        cases hstart
      · exact ⟨(mem_segments hs).1, (mem_segments hs).2.1⟩
  · rintro (hroot | ⟨ss, hne, hss, hjoin⟩)
    · rw [if_pos hroot, hroot]
    · split_ifs with hroot
      · exact hroot.symm
      · rw [hjoin, segments_joinPath hss]

namespace RequestHeader

variable {item : Bytes × Bytes}

theorem mem_queryItem (h : (0 : UInt8) ∉ item.1 ∧ (0 : UInt8) ∉ item.2) {c : UInt8}
    (hc : c ∈ queryItem item) :
    c = 61 ∨ c ∉ urlSeparators ∧ (c = 10 ∨ c = 13 → c ∈ item.1 ∨ c ∈ item.2) := by
  rcases List.mem_append.mp hc with hc | hc
  · obtain ⟨hsep, hline⟩ := mem_percentEncode h.1 hc
    exact .inr ⟨hsep, fun heq => .inl (hline heq)⟩
  · rcases List.mem_append.mp hc with hc | hc
    · exact .inl (List.mem_singleton.mp hc)
    · obtain ⟨hsep, hline⟩ := mem_percentEncode h.2 hc
      exact .inr ⟨hsep, fun heq => .inr (hline heq)⟩

theorem setItem_queryItem (query_args : OrdMap byteOrder Bytes)
    (h : (0 : UInt8) ∉ item.1 ∧ (0 : UInt8) ∉ item.2) :
    setItem query_args (queryItem item) = query_args.insert item.1 item.2 := by
  have hnul : (0 : UInt8) ∉ queryItem item := by
    intro h0
    rcases mem_queryItem h h0 with h0 | ⟨h0, -⟩
    · exact absurd h0 (by decide)
    · exact h0 (by decide)
  have hsplit : split (queryItem item) (bytes "=") =
      percentEncode item.1 :: pieces (percentEncode item.2) (bytes "=") := by
    rw [split_eq_pieces hnul]
    exact pieces_append (not_mem_percentEncode h.1 (by decide)) _
  rw [setItem, hsplit]
  by_cases hvalue : item.2 = []
  · rw [(percentEncode_eq_nil_iff h.2).mpr hvalue, pieces_nil]
    simp only [percentDecode_percentEncode h.1, hvalue]
  · have hone : pieces (percentEncode item.2) (bytes "=") = [percentEncode item.2] :=
      pieces_single (not_mem_percentEncode h.2 (by decide))
        fun hnil => hvalue ((percentEncode_eq_nil_iff h.2).mp hnil)
    rw [hone]
    simp only [percentDecode_percentEncode h.1, percentDecode_percentEncode h.2]

variable {request : RequestHeader}

structure CleanUrl (request : RequestHeader) : Prop where
  path : CleanPath request.uri
  uri : (0 : UInt8) ∉ request.uri
  args : ∀ item ∈ request.query_args.entries, (0 : UInt8) ∉ item.1 ∧ (0 : UInt8) ∉ item.2

theorem mem_query {entries : List (Bytes × Bytes)}
    (h : ∀ item ∈ entries, (0 : UInt8) ∉ item.1 ∧ (0 : UInt8) ∉ item.2) {c : UInt8}
    (hc : c ∈ (bytes "&").intercalate (entries.map queryItem)) :
    c = 38 ∨ c = 61 ∨ c ∉ urlSeparators ∧
      (c = 10 ∨ c = 13 → ∃ item ∈ entries, c ∈ item.1 ∨ c ∈ item.2) := by
  rcases mem_intercalate hc with hc | ⟨part, hpart, hc⟩
  · exact .inl (List.mem_singleton.mp hc)
  · obtain ⟨item, hitem, rfl⟩ := List.mem_map.mp hpart
    rcases mem_queryItem (h item hitem) hc with heq | ⟨hsep, hline⟩
    · exact .inr (.inl heq)
    · exact .inr (.inr ⟨hsep, fun heq => ⟨item, hitem, hline heq⟩⟩)

theorem mem_getUrl (h : CleanUrl request) {c : UInt8} (hc : c ∈ request.getUrl) :
    c ≠ 0 ∧ c ≠ 32 ∧ (c = 10 ∨ c = 13 →
      c ∈ request.uri ∨ ∃ item ∈ request.query_args.entries, c ∈ item.1 ∨ c ∈ item.2) := by
  have hseparators : ∀ c, c ∉ urlSeparators → c ≠ 0 ∧ c ≠ 32 := by
    intro c hsep
    constructor
    · rintro rfl
      exact hsep (by decide)
    · rintro rfl
      exact hsep (by decide)
  have hoctet : ∀ b : UInt8, (b ≠ 0 ∧ b ≠ 32 ∧ b ≠ 10 ∧ b ≠ 13) → c = b → c ≠ 0 ∧ c ≠ 32 ∧
      (c = 10 ∨ c = 13 →
        c ∈ request.uri ∨ ∃ item ∈ request.query_args.entries, c ∈ item.1 ∨ c ∈ item.2) := by
    rintro b ⟨h0, h32, h10, h13⟩ rfl
    exact ⟨h0, h32, fun h => (h.elim h10 h13).elim⟩
  rcases List.mem_append.mp hc with hc | hc
  · rcases mem_getPath h.uri hc with heq | ⟨hsep, hline⟩
    · exact hoctet 47 (by decide) heq
    · exact ⟨(hseparators c hsep).1, (hseparators c hsep).2, fun heq => .inl (hline heq)⟩
  · split_ifs at hc with hargs
    · cases hc
    · rcases List.mem_append.mp hc with hc | hc
      · exact hoctet 63 (by decide) (List.mem_singleton.mp hc)
      · rcases mem_query h.args hc with heq | heq | ⟨hsep, hline⟩
        · exact hoctet 38 (by decide) heq
        · exact hoctet 61 (by decide) heq
        · exact ⟨(hseparators c hsep).1, (hseparators c hsep).2, fun heq => .inr (hline heq)⟩

theorem foldl_setItem {entries : List (Bytes × Bytes)}
    (h : ∀ item ∈ entries, (0 : UInt8) ∉ item.1 ∧ (0 : UInt8) ∉ item.2)
    (query_args : OrdMap byteOrder Bytes) :
    (entries.map queryItem).foldl setItem query_args =
      entries.foldl (fun m e => m.insert e.1 e.2) query_args := by
  induction entries generalizing query_args with
  | nil => rfl
  | cons item entries ih =>
    rw [List.map_cons, List.foldl_cons, List.foldl_cons,
      setItem_queryItem query_args (h item List.mem_cons_self)]
    exact ih (fun item hitem => h item (List.mem_cons_of_mem _ hitem)) _

theorem pieces_query {entries : List (Bytes × Bytes)}
    (h : ∀ item ∈ entries, (0 : UInt8) ∉ item.1 ∧ (0 : UInt8) ∉ item.2) :
    pieces ((bytes "&").intercalate (entries.map queryItem)) (bytes "&") =
      entries.map queryItem := by
  apply pieces_intercalate
  · intro part hpart hamp
    obtain ⟨item, hitem, rfl⟩ := List.mem_map.mp hpart
    rcases mem_queryItem (h item hitem) hamp with heq | ⟨hsep, -⟩
    · exact absurd heq (by decide)
    · exact hsep (by decide)
  · intro hlast
    obtain ⟨item, -, hnil⟩ := List.mem_map.mp (List.mem_of_getLast? hlast)
    have hlen := congrArg List.length hnil
    rw [queryItem, List.length_append, List.length_append] at hlen
    have hone : (bytes "=").length = 1 := rfl
    rw [List.length_nil] at hlen
    omega

theorem setUrl_getUrl_eq (huri : (0 : UInt8) ∉ request.uri)
    (hitems : ∀ item ∈ request.query_args.entries, (0 : UInt8) ∉ item.1 ∧ (0 : UInt8) ∉ item.2)
    {received : RequestHeader} (hnew : received.query_args = .empty) :
    received.setUrl request.getUrl =
      { received with uri := percentDecode (getPath request.uri), query_args := request.query_args } := by
  have hpath : (63 : UInt8) ∉ getPath request.uri := by
    intro hc
    rcases mem_getPath huri hc with heq | ⟨hsep, -⟩
    · exact absurd heq (by decide)
    · exact hsep (by decide)
  have hargs : ∀ entries, entries = request.query_args.entries →
      entries.foldl (fun m e => m.insert e.1 e.2) OrdMap.empty = request.query_args := by
    rintro entries rfl
    exact OrdMap.ext (OrdMap.ofEntries_entries request.query_args.sorted)
  rw [getUrl]
  split_ifs with hempty
  · rw [List.append_nil, setUrl_of_path hpath, hnew]
    rw [← hargs [] hempty.symm]
    rfl
  · have hnul : (0 : UInt8) ∉ (bytes "&").intercalate (request.query_args.entries.map queryItem) := by
      intro hc
      rcases mem_query hitems hc with heq | heq | ⟨hsep, -⟩
      · exact absurd heq (by decide)
      · exact absurd heq (by decide)
      · exact hsep (by decide)
    have hquestion : bytes "?" = [63] := rfl
    rw [hquestion, List.singleton_append, setUrl_of_query hpath, split_eq_pieces hnul,
      pieces_query hitems, foldl_setItem hitems, hnew, hargs _ rfl]

theorem CleanPath.head {uri : Bytes} (h : CleanPath uri) : uri.head? = some 47 := by
  rcases h with rfl | ⟨ss, hne, -, rfl⟩
  · rfl
  · obtain ⟨s, ss, rfl⟩ := List.exists_cons_of_ne_nil hne
    rfl

theorem setUrl_getUrl (h : CleanUrl request) {received : RequestHeader}
    (hnew : received.query_args = .empty) : received.setUrl request.getUrl =
      { received with uri := request.uri, query_args := request.query_args } := by
  rw [setUrl_getUrl_eq h.uri h.args hnew,
    (percentDecode_getPath_iff (CleanPath.head h.path) h.uri).mpr h.path]

/-- Which paths make the round trip. -/
theorem url_roundTrips_iff (hstart : request.uri.head? = some 47) (huri : (0 : UInt8) ∉ request.uri)
    (hitems : ∀ item ∈ request.query_args.entries, (0 : UInt8) ∉ item.1 ∧ (0 : UInt8) ∉ item.2) :
    ((setUrl {} request.getUrl).uri = request.uri ∧
      (setUrl {} request.getUrl).query_args = request.query_args) ↔ CleanPath request.uri := by
  rw [setUrl_getUrl_eq huri hitems rfl, ← percentDecode_getPath_iff hstart huri]
  exact and_iff_left rfl

def escapedRequest : RequestHeader where
  uri := bytes "/a b/%"
  query_args := .insert .empty (bytes "&") (bytes "=")

theorem url_roundTrips_escaped :
    (setUrl {} escapedRequest.getUrl).uri = escapedRequest.uri ∧
      (setUrl {} escapedRequest.getUrl).query_args = escapedRequest.query_args := by
  refine (url_roundTrips_iff (by decide) (by decide) ?_).mpr (.inr ⟨[bytes "a b", bytes "%"], ?_⟩)
  · intro item hitem
    obtain rfl : item = (bytes "&", bytes "=") := List.mem_singleton.mp hitem
    decide
  · decide

/-- A trailing slash is lost. -/
theorem url_not_roundTrips_slash :
    ¬ ∀ request : RequestHeader, request.uri.head? = some 47 → (0 : UInt8) ∉ request.uri →
      (∀ item ∈ request.query_args.entries, (0 : UInt8) ∉ item.1 ∧ (0 : UInt8) ∉ item.2) →
      (setUrl {} request.getUrl).uri = request.uri ∧
        (setUrl {} request.getUrl).query_args = request.query_args := by
  intro h
  have huri := (h { uri := bytes "/a/" } (by decide) (by decide) (List.forall_mem_nil _)).1
  revert huri
  decide +kernel

end RequestHeader

end Sese.Net.Http
