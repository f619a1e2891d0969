import Sese.Net.Http.HttpOutput
import Sese.Net.Http.TextParsing

/-!
# Requests that are sent and received

`recvRequest` of what `sendRequest` writes gives the same request exactly when no field is
named `Cookie` and every cookie has a value in which there is no `=`: `parseFromCookie` cuts
a pair at every `=`, and drops it unless there are two pieces.
-/
namespace Sese.Net.Http

open Foundation
open Sese.Io

def cookieLine (cookies : CookieMap) : Bytes :=
  bytes "Cookie: " ++ (bytes "; ").intercalate (cookies.entries.map cookiePair)

def Header.cookieEntries (header : Header) : List (Bytes × Cookie) :=
  (header.cookies.getD .empty).entries

def requestFields (header : Header) : List Bytes :=
  header.headers.entries.map fieldLine ++
    if header.cookieEntries = [] then [] else [cookieLine (header.cookies.getD .empty)]

def requestLine (request : RequestHeader) : Bytes :=
  requestTypeToString request.type ++ (bytes " " ++ (request.getUrl ++ (bytes " " ++ bytes "HTTP/1.1")))

theorem sentLines_append (lines lines' : List Bytes) :
    sentLines (lines ++ lines') = sentLines lines ++ sentLines lines' := List.flatMap_append

theorem flatMap_fieldLine (fields : List (Bytes × Bytes)) :
    fields.flatMap (fun field => fieldLine field ++ [13, 10]) = sentLines (fields.map fieldLine) := by
  rw [sentLines, List.flatMap_map]

theorem sendHeader_request (header : Header) :
    sendHeader header false = sentLines (requestFields header) ++ [13, 10] := by
  rw [sendHeader, requestFields, sentLines_append, flatMap_fieldLine]
  congr 2
  rw [Header.cookieEntries]
  cases header.cookies with
  | none => rfl
  | some cookies =>
    simp only [Option.getD_some, sendCookie, cookieLine, Bool.false_eq_true, if_false]
    split_ifs
    · rfl
    · simp [sentLines]

theorem sendRequest_eq {request : RequestHeader} (h : request.version = .version11) :
    sendRequest request =
      (true, sentLines (requestLine request :: requestFields request.header) ++ [13, 10]) := by
  have hline : bytes " HTTP/1.1" = bytes " " ++ bytes "HTTP/1.1" := by decide
  rw [sendRequest, if_pos h, sendHeader_request, requestLine, hline]
  simp [sentLines]

def Plain (text : Bytes) : Prop := (0 : UInt8) ∉ text ∧ (13 : UInt8) ∉ text ∧ (10 : UInt8) ∉ text

instance : DecidablePred Plain := fun _ => instDecidableAnd

theorem Plain.append {text text' : Bytes} (h : Plain text) (h' : Plain text') :
    Plain (text ++ text') := by
  simp only [Plain, List.mem_append, not_or]
  exact ⟨⟨h.1, h'.1⟩, ⟨h.2.1, h'.2.1⟩, ⟨h.2.2, h'.2.2⟩⟩

theorem Plain.intercalate {sep : Bytes} {parts : List Bytes} (h : Plain sep)
    (h' : ∀ part ∈ parts, Plain part) : Plain (sep.intercalate parts) := by
  have hmem : ∀ b : UInt8, b ∉ sep → (∀ part ∈ parts, b ∉ part) → b ∉ sep.intercalate parts := by
    intro b hsep hparts hb
    rcases mem_intercalate hb with hb | ⟨part, hpart, hb⟩
    · exact hsep hb
    · exact hparts part hpart hb
  exact ⟨hmem 0 h.1 fun part hpart => (h' part hpart).1,
    hmem 13 h.2.1 fun part hpart => (h' part hpart).2.1,
    hmem 10 h.2.2 fun part hpart => (h' part hpart).2.2⟩

/-- The requests that should survive: all texts are for one line, the names of the fields have
no separator, and the cookies can be told apart. -/
structure Sendable (request : RequestHeader) : Prop where
  version : request.version = .version11
  type : request.type ≠ .another
  path : CleanPath request.uri
  uri : Plain request.uri
  args : ∀ item ∈ request.query_args.entries, Plain item.1 ∧ Plain item.2
  fields : ∀ field ∈ request.header.headers.entries,
    Plain field.1 ∧ Plain field.2 ∧ (58 : UInt8) ∉ field.1 ∧ (32 : UInt8) ∉ field.1
  cookies : ∀ cookie ∈ request.header.cookieEntries, Plain cookie.1 ∧ Plain cookie.2.value ∧
    (61 : UInt8) ∉ cookie.1 ∧ (59 : UInt8) ∉ cookie.1 ∧ (59 : UInt8) ∉ cookie.2.value
  lines : ∀ line ∈ requestLine request :: requestFields request.header,
    line.length ≤ httpMaxSingleLine

def Header.cookiePairs (header : Header) : List (Bytes × Bytes) :=
  header.cookieEntries.map fun cookie => (cookie.1, cookie.2.value)

/-- The same method, URI, query arguments, fields and cookies. -/
structure SameRequest (sent received : RequestHeader) : Prop where
  type : received.type = sent.type
  uri : received.uri = sent.uri
  query_args : received.query_args = sent.query_args
  headers : received.header.headers = sent.header.headers
  cookies : received.header.cookiePairs = sent.header.cookiePairs

/-- `recvRequest` for a new request header. -/
def recvRequestHeader {σ : Type} [InputStream σ] (source : σ) :
    Except Fault (Bool × RequestHeader × σ) := do
  let (status, request, source) ← recvRequest source {}
  return (status, request.toRequestHeader, source)

theorem stringToRequestType_toString {type : RequestType} (h : type ≠ .another) :
    stringToRequestType (requestTypeToString type) = type := by
  cases type with
  | another => exact absurd rfl h
  | _ => decide

theorem not_blank_requestTypeToString (type : RequestType) :
    (32 : UInt8) ∉ requestTypeToString type ∧ (13 : UInt8) ∉ requestTypeToString type := by
  cases type <;> decide

theorem Sendable.cleanUrl {request : RequestHeader} (h : Sendable request) :
    RequestHeader.CleanUrl request where
  path := h.path
  uri := h.uri.1
  args item hitem := ⟨(h.args item hitem).1.1, (h.args item hitem).2.1⟩

theorem Sendable.not_mem_getUrl {request : RequestHeader} (h : Sendable request) :
    (32 : UInt8) ∉ request.getUrl ∧ (13 : UInt8) ∉ request.getUrl := by
  constructor
  · exact fun hc => (RequestHeader.mem_getUrl h.cleanUrl hc).2.1 rfl
  · intro hc
    rcases (RequestHeader.mem_getUrl h.cleanUrl hc).2.2 (.inr rfl) with huri | ⟨item, hitem, harg⟩
    · exact h.uri.2.1 huri
    · rcases harg with hkey | hvalue
      · exact (h.args item hitem).1.2.1 hkey
      · exact (h.args item hitem).2.2.1 hvalue

theorem pieces_requestLine {request : RequestHeader} (h : Sendable request) :
    pieces (requestLine request) (bytes " ") =
      [requestTypeToString request.type, request.getUrl, bytes "HTTP/1.1"] := by
  have hblank : bytes " " = [32] := rfl
  have hversion : pieces (bytes "HTTP/1.1") [32] = [bytes "HTTP/1.1"] := by decide
  rw [requestLine, hblank]
  rw [pieces_append (not_blank_requestTypeToString request.type).1, pieces_append h.not_mem_getUrl.1,
    hversion]

theorem not_return_requestLine {request : RequestHeader} (h : Sendable request) :
    (13 : UInt8) ∉ requestLine request := by
  have hversion : (13 : UInt8) ∉ bytes "HTTP/1.1" := by decide
  have hblank : (13 : UInt8) ∉ bytes " " := by decide
  simp [requestLine, (not_blank_requestTypeToString request.type).2, h.not_mem_getUrl.2, hversion,
    hblank]

theorem fieldOf_fieldLine {name value : Bytes} (h : (58 : UInt8) ∉ name ∧ (32 : UInt8) ∉ name) :
    fieldOf (fieldLine (name, value)) = .ok (some (name, value)) := by
  have hcut : Cut (fieldLine (name, value)) name (32 :: value) := by
    refine ⟨58, rfl, .inl rfl, ?_⟩
    rintro b hb (rfl | rfl)
    · exact h.1 hb
    · exact h.2 hb
  rw [hcut.fieldOf, if_neg (List.cons_ne_nil _ _)]
  rfl

def storeFields (header : Header) (cookies : Option CookieMap) (fields : List (Bytes × Bytes)) :
    Header × Option CookieMap :=
  fields.foldl (fun stored field => storeField stored.1 stored.2 field) (header, cookies)

theorem parseFields_fieldLines {fields : List (Bytes × Bytes)}
    (h : ∀ field ∈ fields, (58 : UInt8) ∉ field.1 ∧ (32 : UInt8) ∉ field.1) (header : Header)
    (cookies : Option CookieMap) (lines : List Bytes) :
    parseFields header cookies (fields.map fieldLine ++ lines) =
      parseFields (storeFields header cookies fields).1 (storeFields header cookies fields).2
        lines := by
  induction fields generalizing header cookies with
  | nil => rfl
  | cons field fields ih =>
    have hfield : fieldOf (fieldLine field) = .ok (some field) :=
      fieldOf_fieldLine (h field List.mem_cons_self)
    simp only [List.map_cons, List.cons_append, parseFields, hfield]
    exact ih (fun f hf => h f (List.mem_cons_of_mem _ hf)) _ _

def IsCookie (field : Bytes × Bytes) : Prop := strcmpDoNotCase field.1 (bytes "Cookie")

instance : DecidablePred IsCookie := fun _ => instDecidableEqBool _ _

theorem storeFields_headers (header : Header) (cookies : Option CookieMap)
    (fields : List (Bytes × Bytes)) :
    (storeFields header cookies fields).1.headers =
      (fields.filter fun field => ¬ IsCookie field).foldl (fun m e => m.insert e.1 e.2)
        header.headers := by
  induction fields generalizing header cookies with
  | nil => rfl
  | cons field fields ih =>
    have hstep : storeFields header cookies (field :: fields) =
        storeFields (storeField header cookies field).1 (storeField header cookies field).2 fields :=
      rfl
    rw [hstep, ih]
    by_cases hcookie : IsCookie field
    · have hstrcmp : strcmpDoNotCase field.1 (bytes "Cookie") = true := hcookie
      rw [List.filter_cons_of_neg (by simpa using hcookie), storeField, if_pos hstrcmp]
    · have hstrcmp : ¬ strcmpDoNotCase field.1 (bytes "Cookie") = true := hcookie
      rw [List.filter_cons_of_pos (by simpa using hcookie), storeField, if_neg hstrcmp]
      rfl

theorem storeFields_cookies {fields : List (Bytes × Bytes)} (h : ∀ field ∈ fields, ¬ IsCookie field)
    (header : Header) (cookies : Option CookieMap) :
    (storeFields header cookies fields).2 = cookies := by
  induction fields generalizing header with
  | nil => rfl
  | cons field fields ih =>
    have hstrcmp : ¬ strcmpDoNotCase field.1 (bytes "Cookie") = true := h field List.mem_cons_self
    have hstep : storeFields header cookies (field :: fields) =
        storeFields (header.set field.1 field.2) cookies fields := by
      rw [storeFields, List.foldl_cons, storeField, if_neg hstrcmp]
      rfl
    rw [hstep]
    exact ih (fun f hf => h f (List.mem_cons_of_mem _ hf)) _

/-- What is read of a pair that is written: there have to be two pieces. -/
def readPair (cookie : Bytes × Cookie) : Option (Bytes × Cookie) :=
  match pieces cookie.2.value (bytes "=") with
  | [value] => some (cookie.1, { name := cookie.1, value := value })
  | _ => none

structure ClearPair (cookie : Bytes × Cookie) : Prop where
  name : (0 : UInt8) ∉ cookie.1 ∧ (61 : UInt8) ∉ cookie.1 ∧ (59 : UInt8) ∉ cookie.1
  value : (0 : UInt8) ∉ cookie.2.value ∧ (59 : UInt8) ∉ cookie.2.value

theorem not_mem_cookiePair {cookie : Bytes × Cookie} (h : ClearPair cookie) :
    (0 : UInt8) ∉ cookiePair cookie ∧ (59 : UInt8) ∉ cookiePair cookie := by
  have hequal : (0 : UInt8) ∉ bytes "=" ∧ (59 : UInt8) ∉ bytes "=" := by decide
  simp [cookiePair, h.name, h.value, hequal]

theorem split_cookiePair {cookie : Bytes × Cookie} (h : ClearPair cookie) :
    split (cookiePair cookie) (bytes "=") = cookie.1 :: pieces cookie.2.value (bytes "=") := by
  rw [split_eq_pieces (not_mem_cookiePair h).1]
  exact pieces_append h.name.2.1 _

theorem split_cookies {cookies : List (Bytes × Cookie)} (h : ∀ cookie ∈ cookies, ClearPair cookie) :
    split ((bytes "; ").intercalate (cookies.map cookiePair)) (bytes "; ") =
      cookies.map cookiePair := by
  have hnul : (0 : UInt8) ∉ (bytes "; ").intercalate (cookies.map cookiePair) := by
    intro h0
    rcases mem_intercalate h0 with h0 | ⟨part, hpart, h0⟩
    · exact absurd h0 (by decide)
    · obtain ⟨cookie, hcookie, rfl⟩ := List.mem_map.mp hpart
      exact (not_mem_cookiePair (h cookie hcookie)).1 h0
  rw [split_eq_pieces hnul]
  apply pieces_intercalate
  · intro part hpart
    obtain ⟨cookie, hcookie, rfl⟩ := List.mem_map.mp hpart
    exact (not_mem_cookiePair (h cookie hcookie)).2
  · intro hlast
    obtain ⟨cookie, -, hnil⟩ := List.mem_map.mp (List.mem_of_getLast? hlast)
    have hlen := congrArg List.length hnil
    rw [cookiePair, List.length_append, List.length_append, List.length_nil] at hlen
    have hone : (bytes "=").length = 1 := rfl
    omega

theorem addPair_cookiePair {cookie : Bytes × Cookie} (h : ClearPair cookie) (cookies : CookieMap) :
    (match split (cookiePair cookie) (bytes "=") with
      | [name, value] => CookieMap.add cookies { name := name, value := value }
      | _ => cookies) =
      (readPair cookie).elim cookies fun pair => cookies.insert pair.1 pair.2 := by
  rw [split_cookiePair h, readPair]
  rcases pieces cookie.2.value (bytes "=") with _ | ⟨value, _ | ⟨value', others⟩⟩
  · rfl
  · rfl
  · rfl

theorem parseFromCookie_pairs {cookies : List (Bytes × Cookie)}
    (h : ∀ cookie ∈ cookies, ClearPair cookie) :
    parseFromCookie ((bytes "; ").intercalate (cookies.map cookiePair)) =
      .ofEntries byteOrder (cookies.filterMap readPair) := by
  rw [parseFromCookie, split_cookies h, OrdMap.ofEntries, List.foldl_map, List.foldl_filterMap]
  apply List.foldl_ext
  intro m cookie hcookie
  apply (addPair_cookiePair (h cookie hcookie) m).trans
  cases readPair cookie <;> rfl

theorem readPair_name {cookie pair : Bytes × Cookie} (h : readPair cookie = some pair) :
    pair.1 = cookie.1 := by
  unfold readPair at h
  split at h
  case h_1 value hvalue =>
    cases h
    rfl
  case h_2 => cases h

theorem readPairs_sorted {cookies : List (Bytes × Cookie)}
    (h : cookies.Pairwise fun a b => byteOrder a.1 < byteOrder b.1) :
    (cookies.filterMap readPair).Pairwise fun a b => byteOrder a.1 < byteOrder b.1 := by
  apply List.Pairwise.filterMap readPair _ h
  intro a b hab a' ha b' hb
  rw [readPair_name ha, readPair_name hb]
  exact hab

/-- A pair is read as it was written exactly when its value is one piece. -/
theorem readPair_eq_iff (cookie : Bytes × Cookie) :
    (∃ pair, readPair cookie = some pair ∧ (pair.1, pair.2.value) = (cookie.1, cookie.2.value)) ↔
      cookie.2.value ≠ [] ∧ (61 : UInt8) ∉ cookie.2.value := by
  have hpieces : pieces cookie.2.value (bytes "=") = [cookie.2.value] ↔
      cookie.2.value ≠ [] ∧ (61 : UInt8) ∉ cookie.2.value := pieces_eq_self_iff
  rw [← hpieces, readPair]
  constructor
  · rintro ⟨pair, hpair, hsame⟩
    split at hpair
    case h_1 value hvalue =>
      cases hpair
      rw [hvalue]
      exact congrArg (fun p => [p.2]) hsame
    case h_2 => cases hpair
  · intro hone
    rw [hone]
    exact ⟨_, rfl, rfl⟩

theorem map_filterMap_eq_iff {α β γ : Type} {f : α → Option β} {g : β → γ} {g' : α → γ} (l : List α) :
    (l.filterMap f).map g = l.map g' ↔ ∀ a ∈ l, ∃ b, f a = some b ∧ g b = g' a := by
  induction l with
  | nil => simp
  | cons a l ih =>
    rw [List.forall_mem_cons, List.filterMap_cons, List.map_cons]
    cases ha : f a with
    | none =>
      constructor
      · intro h
        have hlen := congrArg List.length h
        have hle := List.length_filterMap_le f l
        simp only [List.length_map, List.length_cons] at hlen
        omega
      · rintro ⟨⟨b, hb, -⟩, -⟩
        cases hb
    | some b =>
      rw [List.map_cons, List.cons.injEq, ih]
      simp

theorem storeField_cookie (header : Header) (cookies : Option CookieMap) (text : Bytes) :
    storeField header cookies (bytes "Cookie", text) = (header, some (parseFromCookie text)) := by
  have hname : strcmpDoNotCase (bytes "Cookie") (bytes "Cookie") = true := by decide
  rw [storeField, if_pos hname]

theorem fieldOf_cookieLine (text : Bytes) :
    fieldOf (bytes "Cookie: " ++ text) = .ok (some (bytes "Cookie", text)) := by
  have hline : bytes "Cookie: " ++ text = fieldLine (bytes "Cookie", text) := by
    have hname : bytes "Cookie: " = bytes "Cookie" ++ bytes ": " := by decide
    rw [fieldLine, hname, List.append_assoc]
  rw [hline]
  exact fieldOf_fieldLine (by decide)

variable {request : RequestHeader}

theorem Sendable.clearPair (h : Sendable request) :
    ∀ cookie ∈ request.header.cookieEntries, ClearPair cookie := by
  intro cookie hcookie
  obtain ⟨hname, hvalue, hequal, hsemicolon, hsemicolon'⟩ := h.cookies cookie hcookie
  exact ⟨⟨hname.1, hequal, hsemicolon⟩, hvalue.1, hsemicolon'⟩

def receivedHeader (header : Header) : Header :=
  let stored := storeFields {} none header.headers.entries
  let cookies : CookieMap := .ofEntries byteOrder (header.cookieEntries.filterMap readPair)
  { stored.1 with cookies := if header.cookieEntries = [] then stored.2 else some cookies }

theorem parseFields_requestFields (h : Sendable request) :
    parseFields {} none (requestFields request.header) = some (receivedHeader request.header) := by
  rw [requestFields, parseFields_fieldLines fun field hfield => (h.fields field hfield).2.2,
    receivedHeader]
  split_ifs with hempty
  · rfl
  · have hcookies : parseFromCookie ((bytes "; ").intercalate
        ((request.header.cookies.getD .empty).entries.map cookiePair)) =
          .ofEntries byteOrder (request.header.cookieEntries.filterMap readPair) :=
      parseFromCookie_pairs h.clearPair
    simp only [parseFields, cookieLine, fieldOf_cookieLine, storeField_cookie, hcookies]

theorem plain_fieldLine {field : Bytes × Bytes} (h : Plain field.1 ∧ Plain field.2) :
    Plain (fieldLine field) ∧ fieldLine field ≠ [] := by
  refine ⟨h.1.append (Plain.append (by decide) h.2), ?_⟩
  have hcolon : bytes ": " ≠ [] := by decide
  simp [fieldLine, hcolon]

theorem plain_cookieLine {cookies : CookieMap}
    (h : ∀ cookie ∈ cookies.entries, Plain cookie.1 ∧ Plain cookie.2.value) :
    Plain (cookieLine cookies) ∧ cookieLine cookies ≠ [] := by
  constructor
  · apply Plain.append (by decide)
    apply Plain.intercalate (by decide)
    intro part hpart
    obtain ⟨cookie, hcookie, rfl⟩ := List.mem_map.mp hpart
    exact (h cookie hcookie).1.append (Plain.append (by decide) (h cookie hcookie).2)
  · have hname : bytes "Cookie: " ≠ [] := by decide
    simp [cookieLine, hname]

theorem plain_requestFields (h : Sendable request) :
    ∀ line ∈ requestFields request.header, Plain line ∧ line ≠ [] := by
  intro line hline
  rcases List.mem_append.mp hline with hline | hline
  · obtain ⟨field, hfield, rfl⟩ := List.mem_map.mp hline
    exact plain_fieldLine ⟨(h.fields field hfield).1, (h.fields field hfield).2.1⟩
  · split_ifs at hline with hempty
    · cases hline
    · rw [List.mem_singleton.mp hline]
      exact plain_cookieLine fun cookie hcookie =>
        ⟨(h.cookies cookie hcookie).1, (h.cookies cookie hcookie).2.1⟩

/-- The fields are received as they were sent exactly when none is taken for cookies. -/
theorem receivedHeader_headers_iff (header : Header) :
    (receivedHeader header).headers = header.headers ↔
      ∀ field ∈ header.headers.entries, ¬ strcmpDoNotCase field.1 (bytes "Cookie") := by
  have hheaders : (receivedHeader header).headers.entries =
      header.headers.entries.filter fun field => ¬ IsCookie field := by
    change (storeFields {} none header.headers.entries).1.headers.entries = _
    rw [storeFields_headers]
    exact OrdMap.ofEntries_entries (header.headers.sorted.filter _)
  rw [OrdMap.ext_iff, hheaders, List.filter_eq_self]
  simp only [decide_eq_true_eq]
  exact Iff.rfl

theorem receivedHeader_cookies_iff {header : Header}
    (h : ∀ field ∈ header.headers.entries, ¬ strcmpDoNotCase field.1 (bytes "Cookie")) :
    (receivedHeader header).cookiePairs = header.cookiePairs ↔
      ∀ cookie ∈ header.cookieEntries, cookie.2.value ≠ [] ∧ (61 : UInt8) ∉ cookie.2.value := by
  have hsorted : header.cookieEntries.Pairwise fun a b => byteOrder a.1 < byteOrder b.1 :=
    (header.cookies.getD .empty).sorted
  have hentries : (receivedHeader header).cookieEntries = header.cookieEntries.filterMap readPair := by
    rw [receivedHeader, storeFields_cookies h]
    by_cases hempty : header.cookieEntries = []
    · rw [if_pos hempty, hempty]
      rfl
    · rw [if_neg hempty]
      exact OrdMap.ofEntries_entries (readPairs_sorted hsorted)
  rw [Header.cookiePairs, hentries, Header.cookiePairs, map_filterMap_eq_iff]
  exact forall₂_congr fun cookie _ => readPair_eq_iff cookie

section Streams

variable {σ : Type} [InputStream σ] {Holds : σ → Bytes → Prop} {Spent : σ → Prop}

theorem recvRequestHeader_eq (h : Reads Holds Spent) (hsent : Sendable request) {s : σ} {rest : Bytes}
    (hs : Holds s ((sendRequest request).2 ++ rest)) :
    ∃ s', recvRequestHeader s =
      .ok (true, { request with header := receivedHeader request.header }, s') := by
  have hlines : (sendRequest request).2 ++ rest =
      sentLines (requestLine request :: requestFields request.header) ++ 13 :: (10 :: rest) := by
    rw [sendRequest_eq hsent.version, List.append_assoc]
    rfl
  rw [hlines] at hs
  have hfields : ∀ line ∈ requestFields request.header,
      PlainLine line ∧ line.length ≤ httpMaxSingleLine := by
    intro line hline
    obtain ⟨hplain, hne⟩ := plain_requestFields hsent line hline
    exact ⟨⟨hne, hplain.2⟩, hsent.lines line (List.mem_cons_of_mem _ hline)⟩
  have hparse : parseFields ({} : Request).header none (requestFields request.header) =
      some (receivedHeader request.header) := parseFields_requestFields hsent
  obtain ⟨s', hrecv, -⟩ := recvRequest_eq h hs
    ⟨not_return_requestLine hsent, hsent.lines _ List.mem_cons_self⟩ hfields
    (pieces_requestLine hsent) hparse
  refine ⟨s', ?_⟩
  rw [recvRequestHeader, hrecv, ok_bind]
  simp only [Request.toRequestHeader, Request.setFirstLine, if_true,
    stringToRequestType_toString hsent.type, pure_eq_ok]
  rw [RequestHeader.setUrl_getUrl hsent.cleanUrl rfl, hsent.version]

/-- What is sent is received exactly when no field is named `Cookie` and every cookie has a
value without `=`. -/
theorem request_roundTrips_iff (h : Reads Holds Spent) (hsent : Sendable request) {s : σ}
    {rest : Bytes} (hs : Holds s ((sendRequest request).2 ++ rest)) :
    ((sendRequest request).1 = true ∧ ∃ received s',
      recvRequestHeader s = .ok (true, received, s') ∧ SameRequest request received) ↔
    (∀ field ∈ request.header.headers.entries, ¬ strcmpDoNotCase field.1 (bytes "Cookie")) ∧
      ∀ cookie ∈ request.header.cookieEntries,
        cookie.2.value ≠ [] ∧ (61 : UInt8) ∉ cookie.2.value := by
  obtain ⟨s', hrecv⟩ := recvRequestHeader_eq h hsent hs
  have hsame : ((sendRequest request).1 = true ∧ ∃ received s',
      recvRequestHeader s = .ok (true, received, s') ∧ SameRequest request received) ↔
      (receivedHeader request.header).headers = request.header.headers ∧
        (receivedHeader request.header).cookiePairs = request.header.cookiePairs := by
    rw [hrecv, sendRequest_eq hsent.version]
    constructor
    · rintro ⟨-, received, s₁, hok, hsame⟩
      cases hok
      exact ⟨hsame.headers, hsame.cookies⟩
    · rintro ⟨hheaders, hcookies⟩
      exact ⟨rfl, _, s', rfl, rfl, rfl, rfl, hheaders, hcookies⟩
  rw [hsame, receivedHeader_headers_iff]
  exact and_congr_right fun hnone => receivedHeader_cookies_iff hnone

end Streams

/-- A request with an argument, a field and a cookie. -/
def cookieRequest (value : Bytes) : RequestHeader where
  type := .post
  uri := bytes "/a b/c"
  query_args := OrdMap.empty.insert (bytes "k") (bytes "1&2")
  header :=
    { headers := OrdMap.empty.insert (bytes "Host") (bytes "example")
      cookies := some (CookieMap.add .empty { name := bytes "a", value := value }) }

theorem cleanPath_page : CleanPath (bytes "/a b/c") := by
  refine .inr ⟨[bytes "a b", bytes "c"], ?_, ?_, ?_⟩
  · decide
  · decide
  · decide

theorem cookieRequest_sendable :
    ∀ value ∈ [bytes "b", [], bytes "b=c"], Sendable (cookieRequest value) := by
  intro value hvalue
  simp only [List.mem_cons, List.not_mem_nil, or_false] at hvalue
  rcases hvalue with rfl | rfl | rfl
  all_goals
    constructor
    case path => exact cleanPath_page
    all_goals decide +kernel

theorem request_roundTrips_cookie : (sendRequest (cookieRequest (bytes "b"))).1 = true ∧
    ∃ received s', recvRequestHeader
        (⟨(sendRequest (cookieRequest (bytes "b"))).2, 0⟩ : InputBufferWrapper) =
      .ok (true, received, s') ∧ SameRequest (cookieRequest (bytes "b")) received := by
  have hs : InputBufferWrapper.Holds ⟨(sendRequest (cookieRequest (bytes "b"))).2, 0⟩
      ((sendRequest (cookieRequest (bytes "b"))).2 ++ []) := by
    rw [List.append_nil]
    rfl
  have hsent : Sendable (cookieRequest (bytes "b")) := cookieRequest_sendable _ (by decide)
  exact (request_roundTrips_iff InputBufferWrapper.reads hsent hs).mpr ⟨by decide, by decide⟩

/-- The cookie is lost when its value is empty, and when there is a `=` in it. -/
theorem request_not_roundTrips_cookie :
    (∀ value ∈ [[], bytes "b=c"], Sendable (cookieRequest value)) ∧
    ∀ value ∈ [[], bytes "b=c"],
      (recvRequestHeader (⟨(sendRequest (cookieRequest value)).2, 0⟩ : InputBufferWrapper)).map
          (fun r => (r.1, r.2.1.header.cookiePairs)) = .ok (true, []) ∧
        (cookieRequest value).header.cookiePairs = [(bytes "a", value)] := by
  constructor
  · exact fun value hvalue => cookieRequest_sendable value (List.mem_cons_of_mem _ hvalue)
  · decide +kernel

end Sese.Net.Http
