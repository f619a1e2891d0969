import Sese.Net.Http.RequestRoundTrip
import Sese.Text.GreenwichDates

/-!
# Responses that are sent and received

`recvResponse` of what `sendResponse` writes gives the same status, fields and cookies, with
all attributes of the cookies.
-/
namespace Sese.Net.Http

open Foundation
open Sese.Io

/-- The pieces that `sendSetCookie` writes behind the name and the value. -/
def attributeParts (cookie : Cookie) : List Bytes :=
  (if cookie.path = [] then [] else [bytes "Path=" ++ cookie.path]) ++
  (if cookie.domain = [] then [] else [bytes "Domain=" ++ cookie.domain]) ++
  (if cookie.maxAge > 0 then [bytes "Max-Age=" ++ toDecimal cookie.maxAge]
    else if cookie.expires > 0 then [bytes "Expires=" ++
      DateTimeFormatter.format (.new (cookie.expires * 1000000 % 2 ^ 64))
        DateTimeFormatter.TIME_GREENWICH_MEAN_PATTERN]
    else []) ++
  (if cookie.secure then [bytes "Secure"] else []) ++
  (if cookie.httpOnly then [bytes "HttpOnly"] else [])

theorem cookieAttributes_eq (cookie : Cookie) :
    cookieAttributes cookie = (attributeParts cookie).flatMap (bytes "; " ++ ·) := by
  have hjoin : ∀ name value : Bytes, bytes "; " ++ (name ++ value) = bytes "; " ++ name ++ value :=
    fun name value => (List.append_assoc _ _ _).symm
  have hpath : bytes "; Path=" = bytes "; " ++ bytes "Path=" := by decide
  have hdomain : bytes "; Domain=" = bytes "; " ++ bytes "Domain=" := by decide
  have hage : bytes "; Max-Age=" = bytes "; " ++ bytes "Max-Age=" := by decide
  have hexpires : bytes "; Expires=" = bytes "; " ++ bytes "Expires=" := by decide
  have hsecure : bytes "; Secure" = bytes "; " ++ bytes "Secure" := by decide
  have honly : bytes "; HttpOnly" = bytes "; " ++ bytes "HttpOnly" := by decide
  rw [cookieAttributes, attributeParts, hpath, hdomain, hage, hexpires, hsecure, honly]
  simp only [List.flatMap_append]
  congr 1
  · congr 1
    · congr 1
      · congr 1
        · split_ifs <;> simp
        · split_ifs <;> simp
      · split_ifs <;> simp
    · split_ifs <;> simp
  · split_ifs <;> simp

theorem intercalate_eq_flatMap (sep part : Bytes) (parts : List Bytes) :
    sep.intercalate (part :: parts) = part ++ parts.flatMap (sep ++ ·) := by
  induction parts generalizing part with
  | nil => simp
  | cons part' parts ih =>
    rw [List.intercalate_cons_cons, ih, List.flatMap_cons, List.append_assoc, List.append_assoc]

/-- A cookie that should survive. `CookieMap::add`, the only way into a map, files it under its
name. -/
structure ClearCookie (cookie : Bytes × Cookie) : Prop where
  filed : cookie.1 = cookie.2.name
  name : Plain cookie.1 ∧ (61 : UInt8) ∉ cookie.1 ∧ (59 : UInt8) ∉ cookie.1
  value : Plain cookie.2.value ∧ (59 : UInt8) ∉ cookie.2.value
  path : Plain cookie.2.path ∧ (59 : UInt8) ∉ cookie.2.path
  domain : Plain cookie.2.domain ∧ (59 : UInt8) ∉ cookie.2.domain
  maxAge : cookie.2.maxAge < 2 ^ 63
  expires : DateTimeFormatter.yearOf cookie.2.expires < 10000
  exclusive : cookie.2.maxAge = 0 ∨ cookie.2.expires = 0

theorem keyValue_eq {name : Bytes} (h : (61 : UInt8) ∉ name) (value : Bytes) :
    keyValue (name ++ (bytes "=" ++ value)) = some (name, value) := by
  have hequal : bytes "=" ++ value = 61 :: value := rfl
  have hdrop : (name ++ 61 :: value).drop (name.length + 1) = value := by simp
  rw [hequal, keyValue, findIdx?_octet h, Option.map_some, List.take_left, hdrop]

theorem setAttributes_append (parts parts' : List Bytes) (cookie : Cookie) :
    setAttributes (parts ++ parts') cookie =
      setAttributes parts cookie >>= setAttributes parts' := by
  induction parts generalizing cookie with
  | nil => rfl
  | cons part parts ih =>
    rw [List.cons_append, setAttributes, setAttributes]
    split
    case h_1 key value hkey =>
      cases cookie.setValue key value with
      | error e => rfl
      | ok cookie => exact ih cookie
    case h_2 => exact ih _

theorem setAttributes_value {key : Bytes} (h : (61 : UInt8) ∉ key) (value : Bytes) (cookie : Cookie) :
    setAttributes [key ++ (bytes "=" ++ value)] cookie = cookie.setValue key value := by
  rw [setAttributes, keyValue_eq h]
  cases hset : cookie.setValue key value with
  | error e => simp [hset]
  | ok cookie => simp [hset, setAttributes]

theorem setAttributes_path (cookie : Cookie) (value : Bytes) (h : cookie.path = []) :
    setAttributes (if value = [] then [] else [bytes "Path=" ++ value]) cookie =
      .ok { cookie with path := value } := by
  split_ifs with hempty
  · rw [hempty, ← h]
    rfl
  · have hpart : bytes "Path=" ++ value = bytes "Path" ++ (bytes "=" ++ value) := by
      rw [← List.append_assoc]
      rfl
    have hage : strcmpDoNotCase (bytes "Path") (bytes "max-age") = false := by decide
    have hexpires : strcmpDoNotCase (bytes "Path") (bytes "expires") = false := by decide
    have hpath : strcmpDoNotCase (bytes "Path") (bytes "path") = true := by decide
    rw [hpart, setAttributes_value (by decide)]
    simp [Cookie.setValue, hage, hexpires, hpath]

theorem setAttributes_domain (cookie : Cookie) (value : Bytes) (h : cookie.domain = []) :
    setAttributes (if value = [] then [] else [bytes "Domain=" ++ value]) cookie =
      .ok { cookie with domain := value } := by
  split_ifs with hempty
  · rw [hempty, ← h]
    rfl
  · have hpart : bytes "Domain=" ++ value = bytes "Domain" ++ (bytes "=" ++ value) := by
      rw [← List.append_assoc]
      rfl
    have hage : strcmpDoNotCase (bytes "Domain") (bytes "max-age") = false := by decide
    have hexpires : strcmpDoNotCase (bytes "Domain") (bytes "expires") = false := by decide
    have hpath : strcmpDoNotCase (bytes "Domain") (bytes "path") = false := by decide
    have hdomain : strcmpDoNotCase (bytes "Domain") (bytes "domain") = true := by decide
    rw [hpart, setAttributes_value (by decide)]
    simp [Cookie.setValue, hage, hexpires, hpath, hdomain]

theorem setAttributes_lifetime (cookie : Cookie) {maxAge expires : ℕ} (hage : maxAge < 2 ^ 63)
    (hexpires : DateTimeFormatter.yearOf expires < 10000) (hone : maxAge = 0 ∨ expires = 0)
    (hnew : cookie.maxAge = 0 ∧ cookie.expires = 0) :
    setAttributes (if maxAge > 0 then [bytes "Max-Age=" ++ toDecimal maxAge]
      else if expires > 0 then [bytes "Expires=" ++
        DateTimeFormatter.format (.new (expires * 1000000 % 2 ^ 64))
          DateTimeFormatter.TIME_GREENWICH_MEAN_PATTERN]
      else []) cookie = .ok { cookie with maxAge := maxAge, expires := expires } := by
  split_ifs with hpos hpos'
  · have hpart : ∀ value, bytes "Max-Age=" ++ value = bytes "Max-Age" ++ (bytes "=" ++ value) := by
      intro value
      rw [← List.append_assoc]
      rfl
    have hname : strcmpDoNotCase (bytes "Max-Age") (bytes "max-age") = true := by decide
    have hcast : toUInt64 (maxAge : ℤ) = maxAge := by
      rw [toUInt64]
      omega
    have hzero : expires = 0 := hone.resolve_left (by omega)
    rw [hpart, setAttributes_value (by decide)]
    simp [Cookie.setValue, hname, stoll_toDecimal hage, hcast, hzero, hnew]
  · have hpart : ∀ value, bytes "Expires=" ++ value = bytes "Expires" ++ (bytes "=" ++ value) := by
      intro value
      rw [← List.append_assoc]
      rfl
    have hname : strcmpDoNotCase (bytes "Expires") (bytes "max-age") = false := by decide
    have hname' : strcmpDoNotCase (bytes "Expires") (bytes "expires") = true := by decide
    have hzero : maxAge = 0 := by omega
    rw [hpart, setAttributes_value (by decide)]
    simp only [Cookie.setValue, hname, hname', if_true, Bool.false_eq_true, if_false,
      DateTimeFormatter.parseFromGreenwich_new hexpires, ok_bind, hzero, hnew]
  · obtain rfl : maxAge = 0 := by omega
    obtain rfl : expires = 0 := by omega
    cases cookie
    dsimp only at hnew
    obtain ⟨rfl, rfl⟩ := hnew
    rfl

theorem setAttributes_secure (cookie : Cookie) (value : Bool) (h : cookie.secure = false) :
    setAttributes (if value then [bytes "Secure"] else []) cookie =
      .ok { cookie with secure := value } := by
  cases value with
  | false =>
    cases cookie
    cases h
    rfl
  | true =>
    have hnone : keyValue (bytes "Secure") = none := by decide
    have hname : strcmpDoNotCase (bytes "Secure") (bytes "secure") = true := by decide
    simp [setAttributes, hnone, Cookie.setFlag, hname]

theorem setAttributes_httpOnly (cookie : Cookie) (value : Bool) (h : cookie.httpOnly = false) :
    setAttributes (if value then [bytes "HttpOnly"] else []) cookie =
      .ok { cookie with httpOnly := value } := by
  cases value with
  | false =>
    cases cookie
    cases h
    rfl
  | true =>
    have hnone : keyValue (bytes "HttpOnly") = none := by decide
    have hname : strcmpDoNotCase (bytes "HttpOnly") (bytes "secure") = false := by decide
    have hname' : strcmpDoNotCase (bytes "HttpOnly") (bytes "httponly") = true := by decide
    simp [setAttributes, hnone, Cookie.setFlag, hname, hname']

/-- The attributes make the cookie out of its name and its value. -/
theorem setAttributes_attributeParts {cookie : Bytes × Cookie} (h : ClearCookie cookie) :
    setAttributes (attributeParts cookie.2) { name := cookie.1, value := cookie.2.value } =
      .ok cookie.2 := by
  rw [attributeParts, setAttributes_append, setAttributes_append, setAttributes_append,
    setAttributes_append, setAttributes_path _ _ rfl, ok_bind, setAttributes_domain _ _ rfl, ok_bind,
    setAttributes_lifetime _ h.maxAge h.expires h.exclusive ⟨rfl, rfl⟩, ok_bind,
    setAttributes_secure _ _ rfl, ok_bind, setAttributes_httpOnly _ _ rfl, h.filed]

open DateTimeFormatter (Quiet) in
theorem quiet_of_plain {text : Bytes} (h : Plain text ∧ (59 : UInt8) ∉ text) : Quiet text := by
  intro b hb hmem
  simp only [List.mem_cons, List.not_mem_nil, or_false] at hmem
  rcases hmem with rfl | rfl | rfl | rfl
  · exact h.1.1 hb
  · exact h.1.2.2 hb
  · exact h.1.2.1 hb
  · exact h.2 hb

theorem plain_of_quiet {text : Bytes} (h : DateTimeFormatter.Quiet text) :
    Plain text ∧ (59 : UInt8) ∉ text :=
  ⟨⟨fun h0 => h 0 h0 (by decide), fun h13 => h 13 h13 (by decide), fun h10 => h 10 h10 (by decide)⟩,
    fun h59 => h 59 h59 (by decide)⟩

theorem plain_attributeParts {cookie : Bytes × Cookie} (h : ClearCookie cookie) :
    ∀ part ∈ attributeParts cookie.2, DateTimeFormatter.Quiet part ∧ part ≠ [] := by
  have hname : ∀ name value : Bytes, DateTimeFormatter.Quiet name ∧ name ≠ [] →
      DateTimeFormatter.Quiet value → DateTimeFormatter.Quiet (name ++ value) ∧ name ++ value ≠ [] :=
    fun name value hname hvalue => ⟨hname.1.append hvalue, by simp [hname.2]⟩
  have hdigits : ∀ n, DateTimeFormatter.Quiet (toDecimal n) := by
    intro n b hb hmem
    have hdigit := isdigit_toDecimal n b hb
    simp only [List.mem_cons, List.not_mem_nil, or_false] at hmem
    rcases hmem with rfl | rfl | rfl | rfl
    all_goals exact absurd hdigit (by decide)
  intro part hpart
  simp only [attributeParts, List.mem_append] at hpart
  rcases hpart with (((hpart | hpart) | hpart) | hpart) | hpart
  · split_ifs at hpart with hempty
    · cases hpart
    · rw [List.mem_singleton.mp hpart]
      exact hname _ _ (by decide) (quiet_of_plain h.path)
  · split_ifs at hpart with hempty
    · cases hpart
    · rw [List.mem_singleton.mp hpart]
      exact hname _ _ (by decide) (quiet_of_plain h.domain)
  · split_ifs at hpart with hage hexpires
    · rw [List.mem_singleton.mp hpart]
      exact hname _ _ (by decide) (hdigits _)
    · rw [List.mem_singleton.mp hpart, Nat.mod_eq_of_lt (DateTimeFormatter.microseconds_lt h.expires)]
      exact hname _ _ (by decide) (DateTimeFormatter.quiet_format (DateTimeFormatter.fits_new h.expires))
    · cases hpart
  · split_ifs at hpart
    · rw [List.mem_singleton.mp hpart]
      decide
    · cases hpart
  · split_ifs at hpart
    · rw [List.mem_singleton.mp hpart]
      decide
    · cases hpart

/-- What is written behind `Set-Cookie: `. -/
def setCookieText (cookie : Bytes × Cookie) : Bytes :=
  (bytes "; ").intercalate (cookiePair cookie :: attributeParts cookie.2)

theorem quiet_cookiePair {cookie : Bytes × Cookie} (h : ClearCookie cookie) :
    DateTimeFormatter.Quiet (cookiePair cookie) := by
  have hequal : DateTimeFormatter.Quiet (bytes "=") := by decide
  exact (quiet_of_plain ⟨h.name.1, h.name.2.2⟩).append (hequal.append (quiet_of_plain h.value))

theorem plain_setCookieText {cookie : Bytes × Cookie} (h : ClearCookie cookie) :
    Plain (setCookieText cookie) := by
  apply Plain.intercalate (by decide)
  rw [List.forall_mem_cons]
  exact ⟨(plain_of_quiet (quiet_cookiePair h)).1,
    fun part hpart => (plain_of_quiet (plain_attributeParts h part hpart).1).1⟩

theorem split_setCookieText {cookie : Bytes × Cookie} (h : ClearCookie cookie) :
    split (setCookieText cookie) (bytes "; ") = cookiePair cookie :: attributeParts cookie.2 := by
  rw [split_eq_pieces (plain_setCookieText h).1]
  apply pieces_intercalate
  · rw [List.forall_mem_cons]
    exact ⟨(plain_of_quiet (quiet_cookiePair h)).2,
      fun part hpart => (plain_of_quiet (plain_attributeParts h part hpart).1).2⟩
  · intro hlast
    rcases List.mem_cons.mp (List.mem_of_getLast? hlast) with hnil | hnil
    · have hlen := congrArg List.length hnil
      rw [cookiePair, List.length_append, List.length_append, List.length_nil] at hlen
      have hone : (bytes "=").length = 1 := rfl
      omega
    · exact (plain_attributeParts h [] hnil).2 rfl

theorem parseFromSetCookie_text {cookie : Bytes × Cookie} (h : ClearCookie cookie) :
    parseFromSetCookie (setCookieText cookie) = .ok (some cookie.2) := by
  have hpair : keyValue (cookiePair cookie) = some (cookie.1, cookie.2.value) :=
    keyValue_eq h.name.2.1 _
  simp only [parseFromSetCookie, split_setCookieText h, hpair, setAttributes_attributeParts h, ok_bind]

def setCookieLine (cookie : Bytes × Cookie) : Bytes := bytes "Set-Cookie: " ++ setCookieText cookie

def responseFields (header : Header) : List Bytes :=
  header.headers.entries.map fieldLine ++ header.cookieEntries.map setCookieLine

def statusLine (response : ResponseHeader) : Bytes :=
  bytes "HTTP/1.1" ++ (bytes " " ++ toDecimal response.code.toNat)

theorem sendSetCookie_eq (cookies : CookieMap) :
    sendSetCookie cookies = sentLines (cookies.entries.map setCookieLine) := by
  rw [sendSetCookie, sentLines, List.flatMap_map]
  apply List.flatMap_congr
  intro cookie _
  rw [setCookieLine, setCookieText, intercalate_eq_flatMap, ← cookieAttributes_eq]
  simp only [List.append_assoc]

theorem sendHeader_response (header : Header) :
    sendHeader header true = sentLines (responseFields header) ++ [13, 10] := by
  rw [sendHeader, responseFields, sentLines_append, flatMap_fieldLine]
  congr 2
  rw [Header.cookieEntries]
  cases header.cookies with
  | none => rfl
  | some cookies => exact sendSetCookie_eq cookies

theorem sendResponse_eq {response : ResponseHeader} (h : response.version = .version11) :
    sendResponse response =
      (true, sentLines (statusLine response :: responseFields response.header) ++ [13, 10]) := by
  have hline : bytes "HTTP/1.1 " = bytes "HTTP/1.1" ++ bytes " " := by decide
  rw [sendResponse, if_pos h, sendHeader_response, statusLine, hline]
  simp [sentLines]

/-- The header and the cookies that the field lines give. -/
def keepLines (header : Header) (cookies : Option CookieMap) :
    List Bytes → Except Fault (Option Header)
  | [] => .ok (some { header with cookies := cookies })
  | line :: lines => do
    match ← fieldOf line with
    | none => .ok none
    | some field =>
      let stored ← keepField true header cookies field
      keepLines stored.1 stored.2 lines

theorem keepLines_fields {fields : List (Bytes × Bytes)}
    (h : ∀ field ∈ fields, ((58 : UInt8) ∉ field.1 ∧ (32 : UInt8) ∉ field.1) ∧
      ¬ strcmpDoNotCase field.1 (bytes "Set-Cookie"))
    (header : Header) (cookies : Option CookieMap) (lines : List Bytes) :
    keepLines header cookies (fields.map fieldLine ++ lines) =
      keepLines { header with headers := fields.foldl (fun m e => m.insert e.1 e.2) header.headers }
        cookies lines := by
  induction fields generalizing header with
  | nil => rfl
  | cons field fields ih =>
    obtain ⟨hname, hcookie⟩ := h field List.mem_cons_self
    have hfield : fieldOf (fieldLine field) = .ok (some field) := fieldOf_fieldLine hname
    have hkeep : keepField true header cookies field = .ok (header.set field.1 field.2, cookies) := by
      rw [keepField, if_pos rfl, if_neg hcookie]
    rw [List.map_cons, List.cons_append, keepLines, hfield, ok_bind]
    dsimp only
    rw [hkeep, ok_bind]
    exact ih (fun f hf => h f (List.mem_cons_of_mem _ hf)) _

theorem keepLines_cookies {cookies : List (Bytes × Cookie)} (h : ∀ cookie ∈ cookies, ClearCookie cookie)
    (header : Header) (start : CookieMap) :
    keepLines header (some start) (cookies.map setCookieLine) = .ok (some
      { header with cookies := some (cookies.foldl (fun m e => m.insert e.1 e.2) start) }) := by
  induction cookies generalizing start with
  | nil => rfl
  | cons cookie cookies ih =>
    have hcookie := h cookie List.mem_cons_self
    have hline : setCookieLine cookie = fieldLine (bytes "Set-Cookie", setCookieText cookie) := by
      have hname : bytes "Set-Cookie: " = bytes "Set-Cookie" ++ bytes ": " := by decide
      rw [setCookieLine, fieldLine, hname, List.append_assoc]
    have hfield : fieldOf (setCookieLine cookie) =
        .ok (some (bytes "Set-Cookie", setCookieText cookie)) := by
      rw [hline]
      exact fieldOf_fieldLine (by decide)
    have hname : strcmpDoNotCase (bytes "Set-Cookie") (bytes "Set-Cookie") = true := by decide
    have hkeep : keepField true header (some start) (bytes "Set-Cookie", setCookieText cookie) =
        .ok (header, some (start.insert cookie.1 cookie.2)) := by
      rw [keepField, if_pos rfl, if_pos hname, parseFromSetCookie_text hcookie, ok_bind,
        hcookie.filed]
      rfl
    rw [List.map_cons, keepLines, hfield, ok_bind]
    dsimp only
    rw [hkeep, ok_bind]
    exact ih (fun c hc => h c (List.mem_cons_of_mem _ hc)) _

/-- The responses that should survive. -/
structure SendableResponse (response : ResponseHeader) : Prop where
  version : response.version = .version11
  fields : ∀ field ∈ response.header.headers.entries, Plain field.1 ∧ Plain field.2 ∧
    ((58 : UInt8) ∉ field.1 ∧ (32 : UInt8) ∉ field.1) ∧
    ¬ strcmpDoNotCase field.1 (bytes "Set-Cookie")
  cookies : ∀ cookie ∈ response.header.cookieEntries, ClearCookie cookie
  lines : ∀ line ∈ statusLine response :: responseFields response.header,
    line.length ≤ httpMaxSingleLine

/-- The same status, fields and cookies. -/
structure SameResponse (sent received : ResponseHeader) : Prop where
  version : received.version = sent.version
  code : received.code = sent.code
  headers : received.header.headers = sent.header.headers
  cookies : received.header.cookieEntries = sent.header.cookieEntries

variable {response : ResponseHeader}

theorem pieces_statusLine (response : ResponseHeader) :
    pieces (statusLine response) (bytes " ") = [bytes "HTTP/1.1", toDecimal response.code.toNat] := by
  have hblank : bytes " " = [32] := rfl
  have hversion : (32 : UInt8) ∉ bytes "HTTP/1.1" := by decide
  rw [statusLine, hblank, pieces_append hversion,
    pieces_single (not_mem_toDecimal (by decide) _) (toDecimal_ne_nil _)]

theorem not_return_statusLine (response : ResponseHeader) : (13 : UInt8) ∉ statusLine response := by
  have hversion : (13 : UInt8) ∉ bytes "HTTP/1.1" := by decide
  have hblank : (13 : UInt8) ∉ bytes " " := by decide
  have hcode := not_mem_toDecimal (b := 13) (by decide) response.code.toNat
  simp [statusLine, hversion, hblank, hcode]

theorem plain_responseFields (h : SendableResponse response) :
    ∀ line ∈ responseFields response.header, PlainLine line := by
  intro line hline
  rcases List.mem_append.mp hline with hline | hline
  · obtain ⟨field, hfield, rfl⟩ := List.mem_map.mp hline
    obtain ⟨hname, hvalue, -⟩ := h.fields field hfield
    obtain ⟨hplain, hne⟩ := plain_fieldLine ⟨hname, hvalue⟩
    exact ⟨hne, hplain.2⟩
  · obtain ⟨cookie, hcookie, rfl⟩ := List.mem_map.mp hline
    have hname : Plain (bytes "Set-Cookie: ") := by decide
    have hne : bytes "Set-Cookie: " ≠ [] := by decide
    have hplain := hname.append (plain_setCookieText (h.cookies cookie hcookie))
    exact ⟨by simp [setCookieLine, hne], hplain.2⟩

theorem keepLines_responseFields (h : SendableResponse response) :
    ∃ received, keepLines {} (some .empty) (responseFields response.header) = .ok (some received) ∧
      received.headers = response.header.headers ∧
      received.cookieEntries = response.header.cookieEntries := by
  have hkeep : keepLines {} (some .empty) (responseFields response.header) = .ok (some
      { headers := .ofEntries foldCase response.header.headers.entries
        cookies := some (.ofEntries byteOrder response.header.cookieEntries) }) := by
    rw [responseFields, keepLines_fields fun field hfield => (h.fields field hfield).2.2,
      keepLines_cookies h.cookies]
    rfl
  refine ⟨_, hkeep, ?_, ?_⟩
  · exact OrdMap.ext (OrdMap.ofEntries_entries response.header.headers.sorted)
  · exact OrdMap.ofEntries_entries (response.header.cookies.getD .empty).sorted

section Streams

variable {σ : Type} [InputStream σ] {Holds : σ → Bytes → Prop} {Spent : σ → Prop}

theorem recvFieldsLoop_eq (h : ReadsOctets Holds Spent) (fuel : ℕ) {lines : List Bytes}
    {rest : Bytes} {s : σ} {header result : Header} {cookies : Option CookieMap}
    (hs : Holds s (sentLines lines ++ 13 :: rest))
    (hlines : ∀ line ∈ lines, PlainLine line ∧ line.length ≤ httpMaxSingleLine)
    (hkeep : keepLines header cookies lines = .ok (some result)) (hfuel : lines.length < fuel) :
    ∃ s', recvFieldsLoop true fuel s header cookies = .ok (true, result, s') ∧
      Behind Holds Spent s' rest := by
  induction lines generalizing s header cookies fuel with
  | nil =>
    obtain ⟨fuel, rfl⟩ : ∃ k, fuel = k + 1 := ⟨fuel - 1, by simp at hfuel; omega⟩
    have hs₀ : Holds s ([] ++ 13 :: rest) := hs
    obtain ⟨s', hget, hs'⟩ := getLine_eq h hs₀ (by simp) (by simp)
    simp only [keepLines, Except.ok.injEq, Option.some.injEq] at hkeep
    exact ⟨s', by simp [recvFieldsLoop, hget, hkeep], hs'⟩
  | cons line lines ih =>
    obtain ⟨fuel, rfl⟩ : ∃ k, fuel = k + 1 := ⟨fuel - 1, by simp at hfuel; omega⟩
    obtain ⟨⟨hne, hcr, -⟩, hlen⟩ := hlines line List.mem_cons_self
    rw [sentLines_cons_append] at hs
    obtain ⟨s₁, hget, hs₁⟩ := getLine_eq h hs hcr hlen
    obtain ⟨field, hfield, hkeep⟩ := bind_eq_ok.mp hkeep
    cases field with
    | none => cases hkeep
    | some field =>
      obtain ⟨stored, hstored, hkeep⟩ := bind_eq_ok.mp hkeep
      obtain ⟨s', hloop, hend⟩ := ih fuel hs₁ (fun l hl => hlines l (List.mem_cons_of_mem _ hl))
        hkeep (by simpa using hfuel)
      exact ⟨s', by simp [recvFieldsLoop, hget, hne, hfield, hstored, hloop], hend⟩

/-- What the first line of a response says. -/
def ResponseHeader.setFirstLine (response : ResponseHeader) (version code : Bytes) :
    ResponseHeader :=
  { response with
    version := if version = bytes "HTTP/1.1" then .version11 else .unknown
    code := .ofNat (toUInt64 (toInteger code)) }

/-- The lines of a response up to the carriage return of the empty one are enough for
`recvResponse`, which takes one octet more if there is one. -/
theorem recvResponse_eq (h : ReadsOctets Holds Spent) (response : ResponseHeader) {first : Bytes}
    {fields : List Bytes} {rest : Bytes} {s : σ} {version code : Bytes} {others : List Bytes}
    {header : Header} (hs : Holds s (sentLines (first :: fields) ++ 13 :: rest))
    (hfirst : (13 : UInt8) ∉ first ∧ first.length ≤ httpMaxSingleLine)
    (hfields : ∀ line ∈ fields, PlainLine line ∧ line.length ≤ httpMaxSingleLine)
    (hpieces : pieces first (bytes " ") = version :: code :: others)
    (hkeep : keepLines response.header (some .empty) fields = .ok (some header))
    (hleft : ∀ {s : σ} {u : Bytes}, Holds s u → u.length ≤ InputStream.left s) :
    ∃ s', recvResponse s response =
        .ok (true, { response.setFirstLine version code with header := header }, s') ∧
      Behind Holds Spent s' rest := by
  rw [sentLines_cons_append] at hs
  obtain ⟨s₁, hget, hs₁⟩ := getLine_eq h hs hfirst.1 hfirst.2
  have hfuel : fields.length < InputStream.left s₁ + 1 := by
    have hleft := hleft hs₁
    have hcount := length_le_sentLines fields
    rw [List.length_append] at hleft
    omega
  obtain ⟨s', hloop, hend⟩ := recvFieldsLoop_eq h _ hs₁ hfields hkeep hfuel
  refine ⟨s', ?_, hend⟩
  have hrecv : recvFields true s₁ (response.setFirstLine version code).header =
      .ok (true, header, s') := hloop
  rw [recvResponse, hget, ok_bind]
  simp only [Bool.not_true, Bool.false_eq_true, if_false, hpieces]
  rw [ResponseHeader.setFirstLine] at hrecv
  rw [hrecv]
  rfl

/-- What is sent is received. -/
theorem response_roundTrips (h : Reads Holds Spent) (hsent : SendableResponse response) {s : σ}
    {rest : Bytes} (hs : Holds s ((sendResponse response).2 ++ rest)) :
    (sendResponse response).1 = true ∧ ∃ received s',
      recvResponse s {} = .ok (true, received, s') ∧ SameResponse response received := by
  have hlines : (sendResponse response).2 ++ rest =
      sentLines (statusLine response :: responseFields response.header) ++ 13 :: (10 :: rest) := by
    rw [sendResponse_eq hsent.version]
    simp
  rw [hlines] at hs
  obtain ⟨received, hkeep, hheaders, hcookies⟩ := keepLines_responseFields hsent
  obtain ⟨s', hrecv, -⟩ := recvResponse_eq h.octets {} hs
    ⟨not_return_statusLine response, hsent.lines _ List.mem_cons_self⟩
    (fun line hline => ⟨plain_responseFields hsent line hline,
      hsent.lines line (List.mem_cons_of_mem _ hline)⟩)
    (pieces_statusLine response) hkeep h.left_le
  have hcode : UInt16.ofNat (toUInt64 (toInteger (toDecimal response.code.toNat))) =
      response.code := by
    have hlt := response.code.toNat_lt
    have hcast : toUInt64 (response.code.toNat : ℤ) = response.code.toNat := by
      rw [toUInt64]
      omega
    rw [toInteger_toDecimal (by omega), hcast, UInt16.ofNat_toNat]
  constructor
  · rw [sendResponse_eq hsent.version]
  · exact ⟨_, s', hrecv, hsent.version.symm, hcode, hheaders, hcookies⟩

end Streams

/-- A cookie with an age. -/
def agedCookie : Cookie where
  name := bytes "a"
  value := bytes "b=c"
  path := bytes "/"
  domain := bytes "d"
  maxAge := 60
  secure := true

/-- A cookie with a time. -/
def datedCookie : Cookie where
  name := bytes "e"
  value := []
  expires := 864000
  httpOnly := true

/-- A response with a field and two cookies. -/
def cookieResponse : ResponseHeader where
  code := 404
  header :=
    { headers := OrdMap.empty.insert (bytes "Server") (bytes "sese")
      cookies := some (CookieMap.add (CookieMap.add .empty agedCookie) datedCookie) }

theorem cookieResponse_sendable : SendableResponse cookieResponse where
  version := rfl
  fields := by decide
  cookies := by
    have hentries : cookieResponse.header.cookieEntries =
        [(bytes "a", agedCookie), (bytes "e", datedCookie)] := by decide
    rw [hentries]
    intro cookie hcookie
    simp only [List.mem_cons, List.not_mem_nil, or_false] at hcookie
    rcases hcookie with rfl | rfl
    all_goals
      constructor
      all_goals decide
  lines := by decide +kernel

theorem response_roundTrips_cookies : (sendResponse cookieResponse).1 = true ∧
    ∃ received s', recvResponse
        (⟨(sendResponse cookieResponse).2, 0⟩ : InputBufferWrapper) {} = .ok (true, received, s') ∧
      SameResponse cookieResponse received := by
  have hs : InputBufferWrapper.Holds ⟨(sendResponse cookieResponse).2, 0⟩
      ((sendResponse cookieResponse).2 ++ []) := by
    rw [List.append_nil]
    rfl
  exact response_roundTrips InputBufferWrapper.reads cookieResponse_sendable hs

end Sese.Net.Http
