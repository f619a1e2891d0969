import Sese.Io.InputStream
import Sese.Net.Http.HttpConverter

/-!
# Requests of HTTP/1

`HttpUtil::getLine`, `recvHeader` and `recvRequest`, for any input stream. A line is read
octet by octet up to a carriage return; the octet after it is dropped whatever it is.
-/
namespace Sese.Net.Http

open Foundation
open Sese.Io

variable {σ : Type} [InputStream σ]

/-- `HTTP_MAX_SINGLE_LINE`. -/
def httpMaxSingleLine : ℕ := 1023

/-- The loop of `getLine`; `i` more octets are looked at. -/
def getLineLoop : ℕ → σ → Bytes → Except Fault (Bool × Bytes × σ)
  | 0, source, builder => return (false, builder, source)
  | i + 1, source, builder => do
    let (got, source) ← InputStream.read source 1
    match got with
    | [ch] =>
      if ch ≠ 13 then getLineLoop i source (builder ++ [ch])
      else
        -- the line feed; the result of the read is not looked at
        let (_, source) ← InputStream.read source 1
        return (true, builder, source)
    | _ => return (false, builder, source)

def getLine (source : σ) (builder : Bytes) : Except Fault (Bool × Bytes × σ) :=
  getLineLoop (httpMaxSingleLine + 1) source builder

/-- The name and the value of a field line. The separator is the first colon or blank, and
one more octet is skipped after it; `substr` throws when there is none. -/
def fieldOf (line : Bytes) : Except Fault (Option (Bytes × Bytes)) :=
  match line.findIdx? fun b => b = 58 ∨ b = 32 with
  | none => .ok none
  | some pos =>
    if line.length < pos + 2 then .error .terminate
    else .ok (some (line.take pos, line.drop (pos + 2)))

/-- What `recvHeader` does with a field of a request. The fields go to the header at once,
the cookies at the end. -/
def storeField (header : Header) (cookies : Option CookieMap) (field : Bytes × Bytes) :
    Header × Option CookieMap :=
  if strcmpDoNotCase field.1 (bytes "Cookie") then (header, some (parseFromCookie field.2))
  else (header.set field.1 field.2, cookies)

/-- The loop of `recvHeader`. -/
def recvHeaderLoop : ℕ → σ → Header → Option CookieMap → Except Fault (Bool × Header × σ)
  | 0, _, _, _ => .error .endlessLoop
  | fuel + 1, source, header, cookies => do
    let (status, line, source) ← getLine source []
    if !status then return (false, header, source)
    else if line.isEmpty then return (true, { header with cookies := cookies }, source)
    else
      match ← fieldOf line with
      | none => return (false, header, source)
      | some field =>
        let stored := storeField header cookies field
        recvHeaderLoop fuel source stored.1 stored.2

/-- `recvHeader` for a request. A line that is read takes an octet from the stream. -/
def recvHeader (source : σ) (header : Header) : Except Fault (Bool × Header × σ) :=
  recvHeaderLoop (InputStream.left source + 1) source header none

/-- The methods that `stringToRequestType` knows. -/
def requestTypes : List (Bytes × RequestType) :=
  [(bytes "OPTIONS", .options), (bytes "GET", .get), (bytes "POST", .post),
    (bytes "HEAD", .head), (bytes "PUT", .put), (bytes "DELETE", .delete),
    (bytes "TRACE", .trace), (bytes "CONNECT", .connect)]

def stringToRequestType (str : Bytes) : RequestType := (requestTypes.lookup str).getD .another

/-- The request line. -/
def Request.setFirstLine (request : Request) (method url version : Bytes) : Request :=
  { request with
    type := stringToRequestType method
    url := url
    version := if version = bytes "HTTP/1.1" then .version11 else .unknown }

def recvRequest (source : σ) (request : Request) : Except Fault (Bool × Request × σ) := do
  let (status, line, source) ← getLine source []
  if !status then return (false, request, source)
  else
    match pieces line (bytes " ") with
    | [method, url, version] =>
      let request := request.setFirstLine method url version
      let (status, header, source) ← recvHeader source request.header
      return (status, { request with header := header }, source)
    | _ => return (false, request, source)

/-- The header that the field lines give. -/
def parseFields (header : Header) (cookies : Option CookieMap) : List Bytes → Option Header
  | [] => some { header with cookies := cookies }
  | line :: lines =>
    match fieldOf line with
    | .ok (some field) =>
      let stored := storeField header cookies field
      parseFields stored.1 stored.2 lines
    | _ => none

/-- The request that the lines give, as far as it is known before the body. -/
def parseLines : List Bytes → Option Request
  | [] => none
  | first :: fields =>
    match pieces first (bytes " ") with
    | [method, url, version] =>
      (parseFields {} none fields).map fun header =>
        { ({} : Request).setFirstLine method url version with header := header }
    | _ => none

theorem parseLines_eq_some {first : Bytes} {fields : List Bytes} {request : Request}
    (h : parseLines (first :: fields) = some request) :
    ∃ method url version header, pieces first (bytes " ") = [method, url, version] ∧
      parseFields {} none fields = some header ∧
      request = { ({} : Request).setFirstLine method url version with header := header } := by
  simp only [parseLines] at h
  split at h
  case h_1 method url version hpieces =>
    obtain ⟨header, hheader, rfl⟩ := Option.map_eq_some_iff.mp h
    exact ⟨method, url, version, header, hpieces, hheader, rfl⟩
  case h_2 => cases h

/-- The cookies that a header has before its fields are read are lost. -/
theorem parseFields_congr {header header' : Header} (h : header.headers = header'.headers)
    (cookies : Option CookieMap) (lines : List Bytes) :
    parseFields header cookies lines = parseFields header' cookies lines := by
  induction lines generalizing header header' cookies with
  | nil => simp [parseFields, h]
  | cons line lines ih =>
    simp only [parseFields]
    split
    case h_1 field hfield =>
      simp only [storeField]
      split
      · exact ih h _
      · exact ih (by simp [Header.set, h]) _
    case h_2 => rfl

def sentLines (lines : List Bytes) : Bytes := lines.flatMap (· ++ [13, 10])

theorem sentLines_cons_append (line : Bytes) (lines : List Bytes) (rest : Bytes) :
    sentLines (line :: lines) ++ rest = line ++ 13 :: (10 :: (sentLines lines ++ rest)) := by
  simp [sentLines]

def PlainLine (line : Bytes) : Prop :=
  line ≠ [] ∧ (13 : UInt8) ∉ line ∧ (10 : UInt8) ∉ line

section Reading

variable {Holds : σ → Bytes → Prop} {Spent : σ → Prop}

/-- The stream after one more octet was taken from it, if there was one. -/
def Behind (Holds : σ → Bytes → Prop) (Spent : σ → Prop) (s : σ) : Bytes → Prop
  | [] => Spent s
  | _ :: u => Holds s u

theorem getLineLoop_eq (h : ReadsOctets Holds Spent) (builder : Bytes) {line rest : Bytes} {s : σ} {i : ℕ}
    (hs : Holds s (line ++ 13 :: rest)) (hline : (13 : UInt8) ∉ line) (hi : line.length < i) :
    ∃ s', getLineLoop i s builder = .ok (true, builder ++ line, s') ∧
      Behind Holds Spent s' rest := by
  induction line generalizing s i builder with
  | nil =>
    obtain ⟨i, rfl⟩ : ∃ k, i = k + 1 := ⟨i - 1, by simp at hi; omega⟩
    obtain ⟨s₁, hread, hs₁⟩ := h.read_one hs
    cases rest with
    | nil =>
      obtain ⟨s₂, hend, hs₂⟩ := h.read_end hs₁
      exact ⟨s₂, by simp [getLineLoop, hread, hend], hs₂⟩
    | cons b rest =>
      obtain ⟨s₂, hnext, hs₂⟩ := h.read_one hs₁
      exact ⟨s₂, by simp [getLineLoop, hread, hnext], hs₂⟩
  | cons b line ih =>
    rw [List.mem_cons, not_or] at hline
    obtain ⟨i, rfl⟩ : ∃ k, i = k + 1 := ⟨i - 1, by simp at hi; omega⟩
    obtain ⟨s₁, hread, hs₁⟩ := h.read_one hs
    obtain ⟨s', hloop, hs'⟩ := ih (builder ++ [b]) (i := i) hs₁ hline.2 (by simpa using hi)
    refine ⟨s', ?_, hs'⟩
    have hb : b ≠ 13 := Ne.symm hline.1
    simp [getLineLoop, hread, hb, hloop]

theorem getLine_eq (h : ReadsOctets Holds Spent) {line rest : Bytes} {s : σ}
    (hs : Holds s (line ++ 13 :: rest)) (hline : (13 : UInt8) ∉ line)
    (hlen : line.length ≤ httpMaxSingleLine) :
    ∃ s', getLine s [] = .ok (true, line, s') ∧ Behind Holds Spent s' rest :=
  getLineLoop_eq h [] hs hline (by omega)

theorem getLineLoop_long (h : ReadsOctets Holds Spent) (builder : Bytes) {line rest : Bytes} {s : σ}
    {i : ℕ} (hs : Holds s (line ++ rest)) (hline : (13 : UInt8) ∉ line) (hi : i ≤ line.length) :
    ∃ builder' s', getLineLoop i s builder = .ok (false, builder', s') := by
  induction i generalizing s line builder with
  | zero => exact ⟨builder, s, rfl⟩
  | succ i ih =>
    cases line with
    | nil => simp at hi
    | cons b line =>
      rw [List.mem_cons, not_or] at hline
      obtain ⟨s₁, hread, hs₁⟩ := h.read_one hs
      obtain ⟨builder', s', hloop⟩ := ih (builder ++ [b]) hs₁ hline.2 (by simpa using hi)
      have hb : b ≠ 13 := Ne.symm hline.1
      exact ⟨builder', s', by simp [getLineLoop, hread, hb, hloop]⟩

theorem getLine_long (h : ReadsOctets Holds Spent) {line rest : Bytes} {s : σ}
    (hs : Holds s (line ++ rest)) (hline : (13 : UInt8) ∉ line)
    (hlen : httpMaxSingleLine < line.length) :
    ∃ builder s', getLine s [] = .ok (false, builder, s') :=
  getLineLoop_long h [] hs hline hlen

theorem recvHeaderLoop_eq (h : Reads Holds Spent) (fuel : ℕ) {lines : List Bytes} {rest : Bytes}
    {s : σ} {header result : Header} {cookies : Option CookieMap}
    (hs : Holds s (sentLines lines ++ 13 :: rest))
    (hlines : ∀ line ∈ lines, PlainLine line ∧ line.length ≤ httpMaxSingleLine)
    (hparse : parseFields header cookies lines = some result) (hfuel : lines.length < fuel) :
    ∃ s', recvHeaderLoop fuel s header cookies = .ok (true, result, s') ∧
      Behind Holds Spent s' rest := by
  induction lines generalizing s header cookies fuel with
  | nil =>
    obtain ⟨fuel, rfl⟩ : ∃ k, fuel = k + 1 := ⟨fuel - 1, by simp at hfuel; omega⟩
    have hs₀ : Holds s ([] ++ 13 :: rest) := hs
    obtain ⟨s', hget, hs'⟩ := getLine_eq h.octets hs₀ (by simp) (by simp)
    refine ⟨s', ?_, hs'⟩
    simp only [parseFields, Option.some.injEq] at hparse
    simp [recvHeaderLoop, hget, hparse]
  | cons line lines ih =>
    obtain ⟨fuel, rfl⟩ : ∃ k, fuel = k + 1 := ⟨fuel - 1, by simp at hfuel; omega⟩
    obtain ⟨⟨hne, hcr, -⟩, hlen⟩ := hlines line List.mem_cons_self
    rw [sentLines_cons_append] at hs
    obtain ⟨s₁, hget, hs₁⟩ := getLine_eq h.octets hs hcr hlen
    simp only [parseFields] at hparse
    split at hparse
    case h_1 field hfield =>
      obtain ⟨s', hloop, hend⟩ := ih fuel hs₁
        (fun l hl => hlines l (List.mem_cons_of_mem _ hl)) hparse (by simpa using hfuel)
      exact ⟨s', by simp [recvHeaderLoop, hget, hne, hfield, hloop], hend⟩
    case h_2 => cases hparse

theorem length_le_sentLines (lines : List Bytes) : lines.length ≤ (sentLines lines).length := by
  induction lines with
  | nil => exact le_rfl
  | cons line lines ih =>
    simp only [sentLines, List.flatMap_cons, List.length_append, List.length_cons] at ih ⊢
    omega

/-- The lines of a request up to the carriage return of the empty one are enough for
`recvRequest`, which takes one octet more if there is one. -/
theorem recvRequest_eq (h : Reads Holds Spent) {first : Bytes} {fields : List Bytes} {rest : Bytes}
    {s : σ} {request : Request} {method url version : Bytes} {header : Header}
    (hs : Holds s (sentLines (first :: fields) ++ 13 :: rest))
    (hfirst : (13 : UInt8) ∉ first ∧ first.length ≤ httpMaxSingleLine)
    (hfields : ∀ line ∈ fields, PlainLine line ∧ line.length ≤ httpMaxSingleLine)
    (hpieces : pieces first (bytes " ") = [method, url, version])
    (hparse : parseFields request.header none fields = some header) :
    ∃ s', recvRequest s request =
        .ok (true, { request.setFirstLine method url version with header := header }, s') ∧
      Behind Holds Spent s' rest := by
  rw [sentLines_cons_append] at hs
  obtain ⟨s₁, hget, hs₁⟩ := getLine_eq h.octets hs hfirst.1 hfirst.2
  have hfuel : fields.length < InputStream.left s₁ + 1 := by
    have hleft := h.left_le hs₁
    have hcount := length_le_sentLines fields
    rw [List.length_append] at hleft
    omega
  obtain ⟨s', hloop, hend⟩ := recvHeaderLoop_eq h _ hs₁ hfields hparse hfuel
  refine ⟨s', ?_, hend⟩
  have hrecv : recvHeader s₁ (request.setFirstLine method url version).header =
      .ok (true, header, s') := hloop
  simp [recvRequest, hget, hpieces, hrecv]

theorem recvRequest_long (h : Reads Holds Spent) {first rest : Bytes} {s : σ} {request : Request}
    (hs : Holds s (first ++ rest)) (hcr : (13 : UInt8) ∉ first)
    (hlen : httpMaxSingleLine < first.length) :
    ∃ s', recvRequest s request = .ok (false, request, s') := by
  obtain ⟨builder, s', hget⟩ := getLine_long h.octets hs hcr hlen
  exact ⟨s', by simp [recvRequest, hget]⟩

end Reading

theorem piecesLoop_snoc {sub : Bytes} {b : UInt8} (text : Bytes) (skip : ℕ) (piece : Bytes)
    {first : Bytes} {others : List Bytes}
    (h : piecesLoop sub skip piece text = first :: others) :
    piecesLoop sub skip (piece ++ [b]) text = (b :: first) :: others := by
  induction text generalizing skip piece with
  | nil =>
    simp only [piecesLoop] at h ⊢
    split at h
    · cases h
    · simp only [List.cons.injEq] at h
      simp [← h.1, ← h.2]
  | cons c text ih =>
    cases skip with
    | succ skip => exact ih skip piece h
    | zero =>
      simp only [piecesLoop] at h ⊢
      split at h
      · rename_i hsub
        simp only [List.cons.injEq] at h
        simp [hsub, ← h.1, h.2]
      · rename_i hsub
        simp only [hsub]
        exact ih 0 (c :: piece) h

theorem pieces_cons {sub : Bytes} {b c : UInt8} {text : Bytes} {first : Bytes}
    {others : List Bytes} (hb : sub.head? = some c) (hbc : b ≠ c)
    (h : pieces text sub = first :: others) :
    pieces (b :: text) sub = (b :: first) :: others := by
  obtain ⟨sub', rfl⟩ : ∃ sub', sub = c :: sub' := by
    cases sub with
    | nil => cases hb
    | cons a sub' =>
      simp only [List.head?_cons, Option.some.injEq] at hb
      exact ⟨sub', by rw [hb]⟩
  have hsub : (c :: sub').isPrefixOf (b :: text) = false := by
    simp [List.isPrefixOf, Ne.symm hbc]
  have hstep : pieces (b :: text) (c :: sub') = piecesLoop (c :: sub') 0 [b] text := by
    simp [pieces, piecesLoop, hsub]
  rw [hstep]
  exact piecesLoop_snoc text 0 [] h

theorem stringToRequestType_lineFeed (str : Bytes) :
    stringToRequestType (10 :: str) = .another := by
  have hnone : requestTypes.lookup (10 :: str) = none := by
    rw [List.lookup_eq_none_iff]
    intro p hp
    have hall : ∀ p ∈ requestTypes, p.1.head? ≠ some 10 := by decide
    rw [bne_iff_ne]
    intro heq
    exact hall p hp (by rw [← heq]; rfl)
  rw [stringToRequestType, hnone]
  rfl

end Sese.Net.Http
