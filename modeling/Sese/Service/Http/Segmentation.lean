import Sese.Service.Http.HttpReads

/-!
# How requests are found in the reads

A connection looks for the end of a header with one bit of state, takes what is left of
that read as the body, and reads on until the body is long enough. A client that sends
its requests back to back is understood exactly when the reads end where the requests do,
and the last two octets of a header come in one read. The one exception is a header whose
last line feed comes with the next read: it is taken as the first octet of what follows,
which does no harm to a body of line feeds, nor to a request with an unknown method.
-/
namespace Sese.Service.Http

open Foundation
open Sese.Net.Http

open HttpConnection

/-- A well-formed request: lines that are accepted, and a body as long as they say. -/
structure ClientRequest where
  first : Bytes
  fields : List Bytes
  body : Bytes
  parsed : Request
  plain : ∀ line ∈ first :: fields, PlainLine line ∧ line.length ≤ httpMaxSingleLine
  parses : parseLines (first :: fields) = some parsed
  length_eq : contentLength parsed = body.length

namespace ClientRequest

def head (r : ClientRequest) : Bytes := sentLines (r.first :: r.fields)

def sent (r : ClientRequest) : Bytes := r.head ++ [13, 10] ++ r.body

def request (r : ClientRequest) : Request := { r.parsed with body := r.body }

def Tolerant (r : ClientRequest) : Prop :=
  r.parsed.type = .another ∧ r.first.length < httpMaxSingleLine

/-- The header that is parsed when a line feed may be before it. -/
def seen (r : ClientRequest) (stray : Bool) : Request :=
  if stray then { r.parsed with type := .another } else r.parsed

end ClientRequest

def stream (rs : List ClientRequest) : Bytes := rs.flatMap ClientRequest.sent

def lineFeed (stray : Bool) : Bytes := if stray then [10] else []

/-- The reads end where the requests do. `stray` says that the line feed that ends the
header before is still to come. -/
def Framed : Bool → List ClientRequest → List Bytes → Prop
  | _, [], _ => True
  | stray, r :: rs, reads =>
    (stray = true → r.Tolerant) ∧
      match restAt reads (stray.toNat + r.head.length + 1) with
      -- a read ends between the last two octets of the header
      | some rest => (∀ b ∈ r.body, b = 10) ∧
          ∃ rest', restAt rest r.body.length = some rest' ∧ Framed true rs rest'
      | none => ∃ rest', restAt reads (stray.toNat + r.head.length + 2 + r.body.length) =
          some rest' ∧ Framed false rs rest'

namespace ClientRequest

variable (r : ClientRequest) (stray : Bool)

theorem scanHeader_head : scanHeader false (lineFeed stray ++ r.head) = (true, false) := by
  have hlines := scanHeader_lines fun l hl => (r.plain l hl).1
  cases stray with
  | false => exact hlines false
  | true => exact hlines true

theorem lineFeed_head :
    lineFeed stray ++ r.head = sentLines ((lineFeed stray ++ r.first) :: r.fields) := by
  simp [head, sentLines]

theorem seen_body : (r.seen stray).body = [] := by
  obtain ⟨method, url, version, header, -, -, hparsed⟩ := parseLines_eq_some r.parses
  rw [seen, hparsed]
  cases stray <;> rfl

theorem seen_eq (h : stray = true → r.parsed.type = .another) : r.seen stray = r.parsed := by
  cases stray with
  | false => rfl
  | true => rw [seen, if_pos rfl, ← h rfl]

theorem contentLength_seen : contentLength (r.seen stray) = r.body.length := by
  rw [← r.length_eq]
  cases stray <;> rfl

theorem pieces_first {method url version : Bytes}
    (h : pieces r.first (bytes " ") = [method, url, version]) :
    pieces (lineFeed stray ++ r.first) (bytes " ") = [lineFeed stray ++ method, url, version] := by
  cases stray with
  | false => exact h
  | true => exact pieces_cons (b := 10) (c := 32) (by decide) (by decide) h

/-- The header is parsed, with a line feed before it too if there is room for it. -/
theorem recvRequest_seen {extra : Bytes} {buf : IOBuf} {request : Request}
    (hroom : stray = true → r.first.length < httpMaxSingleLine)
    (hheaders : request.header.headers = .empty) (hbody : request.body = [])
    (hbuf : buf.Holds (lineFeed stray ++ r.head ++ 13 :: extra)) :
    ∃ buf', recvRequest buf request = .ok (true, r.seen stray, buf') ∧
      Behind IOBuf.Holds IOBuf.Spent buf' extra := by
  obtain ⟨method, url, version, header, hpieces, hfields, hparsed⟩ := parseLines_eq_some r.parses
  obtain ⟨⟨-, hcr, -⟩, hlen⟩ := r.plain r.first List.mem_cons_self
  have hfirst : (13 : UInt8) ∉ lineFeed stray ++ r.first ∧
      (lineFeed stray ++ r.first).length ≤ httpMaxSingleLine := by
    cases stray with
    | false => exact ⟨hcr, hlen⟩
    | true => exact ⟨by simpa [lineFeed] using hcr, hroom rfl⟩
  rw [lineFeed_head] at hbuf
  have hparse : parseFields request.header none r.fields = some header := by
    rw [← hfields]
    exact parseFields_congr hheaders none r.fields
  obtain ⟨buf', hrecv, hend⟩ := recvRequest_eq IOBuf.reads hbuf hfirst
    (fun l hl => r.plain l (List.mem_cons_of_mem _ hl)) (r.pieces_first stray hpieces) hparse
  refine ⟨buf', hrecv.trans ?_, hend⟩
  rw [seen, hparsed]
  cases stray with
  | false => simp [Request.setFirstLine, lineFeed, hbody]
  | true => simp [Request.setFirstLine, lineFeed, hbody, stringToRequestType_lineFeed]

theorem recvRequest_refused (request : Request) {extra : Bytes} {buf : IOBuf}
    (hroom : ¬ r.first.length < httpMaxSingleLine)
    (hbuf : buf.Holds (lineFeed true ++ r.head ++ 13 :: extra)) :
    ∃ buf', recvRequest buf request = .ok (false, request, buf') := by
  obtain ⟨⟨-, hcr, -⟩, -⟩ := r.plain r.first List.mem_cons_self
  have hholds : buf.Holds ((10 :: r.first) ++ (13 :: 10 :: (sentLines r.fields ++ 13 :: extra))) := by
    simpa [lineFeed, head, sentLines] using hbuf
  refine recvRequest_long IOBuf.reads hholds (by simpa using hcr) ?_
  rw [List.length_cons]
  omega

end ClientRequest

namespace HttpConnection

variable {env : Env} {c : HttpConnection} {reads : List Bytes}

/-- After the reads, these are the requests that the service was given. -/
def Handles (env : Env) (c : HttpConnection) (reads : List Bytes) (requests : List Request) :
    Prop :=
  ∃ c', c.feed env reads = .ok c' ∧ c'.handled = requests

/-- The response to the request leaves the connection open. -/
def KeepsAlive (env : Env) (request : Request) : Prop :=
  ∀ h : Handleable, h.request = request → (env.handleRequest h).keepalive = true

theorem not_handles_of_same {c' : HttpConnection} {done : List Request} {x : Request}
    {xs : List Request} (hfeed : c.feed env reads = .ok c') (hsame : c'.handled = done) :
    ¬ c.Handles env reads (done ++ x :: xs) := by
  rintro ⟨c'', hfeed', hhandled⟩
  obtain rfl := Except.ok.inj (hfeed.symm.trans hfeed')
  rw [hsame] at hhandled
  simp at hhandled

theorem handles_answer_iff {c' : HttpConnection} {rest : List Bytes} {x : Request}
    {xs : List Request} (hfeed : c.feed env reads = (c'.answer env).feed env rest) :
    c.Handles env reads (c'.handled ++ x :: xs) ↔
      c'.request = x ∧ (c'.answer env).Handles env rest ((c'.answer env).handled ++ xs) := by
  have hanswer : (c'.answer env).handled = c'.handled ++ [c'.request] := answer_handled env c'
  have happend : c'.handled ++ [c'.request] ++ xs = c'.handled ++ c'.request :: xs := by simp
  constructor
  · rintro ⟨c'', hc'', hhandled⟩
    rw [hfeed] at hc''
    obtain ⟨tail, htail⟩ := feed_handled hc''
    rw [hanswer, hhandled, List.append_assoc, List.singleton_append] at htail
    obtain ⟨rfl, rfl⟩ := List.cons.inj (List.append_cancel_left htail)
    exact ⟨rfl, c'', hc'', by rw [hanswer, happend, hhandled]⟩
  · rintro ⟨rfl, c'', hc'', hhandled⟩
    exact ⟨c'', hfeed.trans hc'', by rw [hhandled, hanswer, happend]⟩

theorem Collecting.feed_header (henv : Passes env) (r : ClientRequest) (stray : Bool) {t : Bytes}
    (hroom : stray = true → r.first.length < httpMaxSingleLine) (hc : c.Collecting [])
    (hreads : ∀ d ∈ reads, d ≠ [])
    (hflat : reads.flatten = lineFeed stray ++ (r.head ++ [13, 10] ++ t)) :
    ∃ (c' : HttpConnection) (b : Bytes) (after : List Bytes),
      c.feed env reads = (c'.settle env).feed env after ∧ c'.Receiving (r.seen stray) b ∧
        c'.handled = c.handled ∧ (∀ d ∈ after, d ≠ []) ∧
        (restAt reads (stray.toNat + r.head.length + 1) = some after ∧ b = [] ∧
            after.flatten = 10 :: t ∨
          restAt reads (stray.toNat + r.head.length + 1) = none ∧ b ++ after.flatten = t ∧
            ∀ n, restAt reads (stray.toNat + r.head.length + 2 + n) = restOfBody b after n) := by
  have hflat' : reads.flatten = (lineFeed stray ++ r.head) ++ 13 :: 10 :: t := by
    rw [hflat]
    simp
  have hlen : (lineFeed stray ++ r.head).length = stray.toNat + r.head.length := by
    cases stray <;> simp [lineFeed, Nat.add_comm]
  obtain ⟨c₁, p, data, after, extra, hfeed, hc₁, hsame₁, hdata, hextra, hafter, hrest⟩ :=
    hc.feed_to_end env hreads (r.scanHeader_head stray) hflat'
  have hfound : (scanHeader false (p ++ data)).2 = true := by
    rw [hdata, scanHeader_append, r.scanHeader_head stray]
    rfl
  obtain ⟨buf, hrecv, hbehind⟩ := r.recvRequest_seen stray hroom hc₁.headers hc₁.body
    (hdata ▸ hc₁.push data)
  obtain ⟨c', hdeliver, hc', hsame'⟩ := hc₁.deliver_accepted henv hfound hrecv
    (r.seen_body stray) hbehind
  refine ⟨c', extra.tail, after, ?_, hc', hsame'.trans hsame₁, hafter, ?_⟩
  · rw [hfeed, hdeliver, ok_bind]
  · rw [hlen] at hrest
    cases extra with
    | nil => exact .inl ⟨by simpa using hrest 0, rfl, hextra⟩
    | cons x extra =>
      rw [List.cons_append, List.cons.injEq] at hextra
      refine .inr ⟨by simpa using hrest 0, hextra.2, fun n => ?_⟩
      have hn := hrest (1 + n)
      rw [← Nat.add_assoc] at hn
      rw [hn, restOfBody, List.tail_cons, List.length_cons]
      by_cases hle : extra.length ≤ n
      · rw [if_pos hle, if_pos (by omega)]
        congr 1
        omega
      · rw [if_neg hle, if_neg (by omega)]

/-- A header that has grown too long by the line feed before it ends the connection. -/
theorem Collecting.feed_refused (env : Env) (r : ClientRequest) {t : Bytes}
    (hroom : ¬ r.first.length < httpMaxSingleLine) (hc : c.Collecting [])
    (hreads : ∀ d ∈ reads, d ≠ [])
    (hflat : reads.flatten = lineFeed true ++ (r.head ++ [13, 10] ++ t)) :
    ∃ c', c.feed env reads = .ok c' ∧ c'.handled = c.handled := by
  have hflat' : reads.flatten = (lineFeed true ++ r.head) ++ 13 :: 10 :: t := by
    rw [hflat]
    simp
  obtain ⟨c₁, p, data, after, extra, hfeed, hc₁, hsame₁, hdata, -, -, -⟩ :=
    hc.feed_to_end env hreads (r.scanHeader_head true) hflat'
  have hfound : (scanHeader false (p ++ data)).2 = true := by
    rw [hdata, scanHeader_append, r.scanHeader_head true]
    rfl
  obtain ⟨buf, hrecv⟩ := r.recvRequest_refused c₁.request hroom
    (hdata ▸ hc₁.push data)
  have hdeliver := hc₁.deliver_end env hfound hrecv
  rw [hfeed, hdeliver]
  exact ⟨_, feed_closed rfl after, hsame₁⟩

/-- What becomes of a request whose header is known. Its body has its length when a read
ends there; otherwise it has another length or never comes. -/
theorem Receiving.handles_cases {q : Request} {b : Bytes} {x : Request} (env : Env)
    (hc : c.Receiving q b) (hreads : ∀ d ∈ reads, d ≠ [])
    (henough : contentLength q ≤ (b ++ reads.flatten).length)
    (hlen : x.body.length = contentLength q) (xs : List Request) :
    (∃ (c' : HttpConnection) (u : Bytes) (rest : List Bytes),
        restOfBody b reads (contentLength q) = some rest ∧ c'.Receiving q u ∧
          u.length = contentLength q ∧ u ++ rest.flatten = b ++ reads.flatten ∧
          (∀ d ∈ rest, d ≠ []) ∧
          ((c.settle env).Handles env reads (c.handled ++ x :: xs) ↔ { q with body := u } = x ∧
            (c'.answer env).Handles env rest ((c'.answer env).handled ++ xs))) ∨
      restOfBody b reads (contentLength q) = none ∧
        ¬ (c.settle env).Handles env reads (c.handled ++ x :: xs) := by
  obtain ⟨c', u, rest, hfeed, hc', hsame, hflat, hrest, hcut⟩ | ⟨c', hfeed, hsame, hcut⟩ :=
    hc.feed_settle env hreads henough
  · have hiff : (c.settle env).Handles env reads (c'.handled ++ x :: xs) ↔ _ :=
      handles_answer_iff hfeed
    rw [hsame, hc'.request] at hiff
    by_cases hu : u.length = contentLength q
    · rw [if_pos hu] at hcut
      exact .inl ⟨c', u, rest, hcut, hc', hu, hflat, hrest, hiff⟩
    · rw [if_neg hu] at hcut
      refine .inr ⟨hcut, fun hhandles => hu ?_⟩
      rw [← hlen, ← (hiff.mp hhandles).1]
  · exact .inr ⟨hcut, not_handles_of_same hfeed hsame⟩

theorem Receiving.type_of_handles {q : Request} {b : Bytes} {x : Request} {xs : List Request}
    (hc : c.Receiving q b) (hreads : ∀ d ∈ reads, d ≠ [])
    (henough : contentLength q ≤ (b ++ reads.flatten).length)
    (h : (c.settle env).Handles env reads (c.handled ++ x :: xs)) : q.type = x.type := by
  obtain ⟨c', u, rest, hfeed, hc', hsame, -, -, -⟩ | ⟨c', hfeed, hsame, -⟩ :=
    hc.feed_settle env hreads henough
  · rw [← hsame, handles_answer_iff hfeed, hc'.request] at h
    rw [← h.1]
  · exact absurd h (not_handles_of_same hfeed hsame)

def Open (c : HttpConnection) (rs : List ClientRequest) : Prop :=
  c.Collecting [] ∨ rs = [] ∧ c.phase = .closed

theorem Receiving.answer_open {q : Request} {u : Bytes} {r : ClientRequest}
    {rs : List ClientRequest} (hc : c.Receiving q u) (hrequest : c.request = r.request)
    (halive : ∀ r' ∈ (r :: rs).dropLast, KeepsAlive env r'.request) :
    (c.answer env).Open rs := by
  by_cases hkeep : (env.handleRequest c.toHandleable).keepalive = true
  · exact .inl (hc.answer_collecting hkeep)
  · rw [Bool.not_eq_true] at hkeep
    refine .inr ⟨?_, answer_closed hkeep⟩
    by_contra hrs
    have hmem : r ∈ (r :: rs).dropLast := by
      rw [List.dropLast_cons_of_ne_nil hrs]
      exact List.mem_cons_self
    rw [halive r hmem c.toHandleable hrequest] at hkeep
    cases hkeep

theorem Open.handles_nil (env : Env) (hc : c.Open []) {stray : Bool}
    (hflat : reads.flatten = lineFeed stray) : c.Handles env reads (c.handled ++ []) := by
  rw [List.append_nil]
  obtain hc | ⟨-, hclosed⟩ := hc
  · have hscan : (scanHeader false ([] ++ reads.flatten)).2 = false := by
      rw [hflat]
      cases stray <;> rfl
    obtain ⟨c', hfeed, -, hsame⟩ := hc.feed env hscan
    exact ⟨c', hfeed, hsame⟩
  · exact ⟨c, feed_closed hclosed reads, rfl⟩

/-- The requests are found in all reads that are framed, and in no others. -/
def Understands (env : Env) (rs : List ClientRequest) : Prop :=
  ∀ (c : HttpConnection) (reads : List Bytes) (stray : Bool), c.Open rs →
    (∀ d ∈ reads, d ≠ []) → reads.flatten = lineFeed stray ++ stream rs →
    (c.Handles env reads (c.handled ++ rs.map ClientRequest.request) ↔ Framed stray rs reads)

theorem Understands.next {r : ClientRequest} {rs : List ClientRequest} {u : Bytes}
    (hrs : Understands env rs) (stray : Bool) (hc : c.Receiving r.parsed u)
    (halive : ∀ r' ∈ (r :: rs).dropLast, KeepsAlive env r'.request)
    (hreads : ∀ d ∈ reads, d ≠ [])
    (hflat : u = r.body → reads.flatten = lineFeed stray ++ stream rs) :
    { r.parsed with body := u } = r.request ∧
        (c.answer env).Handles env reads
          ((c.answer env).handled ++ rs.map ClientRequest.request) ↔
      u = r.body ∧ Framed stray rs reads := by
  have hbody : { r.parsed with body := u } = r.request ↔ u = r.body := by
    constructor
    · exact fun h => congrArg Request.body h
    · rintro rfl
      rfl
  rw [hbody]
  refine and_congr_right fun hu => ?_
  have hrequest : c.request = r.request := hc.request.trans (hbody.mpr hu)
  exact hrs _ _ _ (hc.answer_open hrequest halive) hreads (hflat hu)

/-- A request whose header was read without its last line feed, which is taken as the
first octet of the body. -/
theorem Understands.late {r : ClientRequest} {rs : List ClientRequest}
    (hrs : Understands env rs) (hc : c.Receiving r.parsed [])
    (halive : ∀ r' ∈ (r :: rs).dropLast, KeepsAlive env r'.request)
    (hreads : ∀ d ∈ reads, d ≠ []) (hflat : reads.flatten = 10 :: (r.body ++ stream rs)) :
    (c.settle env).Handles env reads
        (c.handled ++ r.request :: rs.map ClientRequest.request) ↔
      (∀ b ∈ r.body, b = 10) ∧
        ∃ rest, restAt reads r.body.length = some rest ∧ Framed true rs rest := by
  have henough : contentLength r.parsed ≤ ([] ++ reads.flatten).length := by
    rw [r.length_eq, List.nil_append, hflat, List.length_cons, List.length_append]
    omega
  have hbody : restOfBody [] reads (contentLength r.parsed) = restAt reads r.body.length := by
    simp [restOfBody, r.length_eq]
  obtain ⟨c', u, rest, hcut, hc', hu, hjoin, hne, hiff⟩ | ⟨hcut, hnot⟩ :=
    hc.handles_cases env (x := r.request) hreads henough r.length_eq.symm
      (rs.map ClientRequest.request)
  · rw [List.nil_append, hflat] at hjoin
    have hnext := hrs.next true hc' halive hne fun h => shift_rest (h ▸ hjoin)
    simp only [← hbody, hcut, Option.some.injEq, exists_eq_left']
    rw [hiff, hnext, shift_iff (hu.trans r.length_eq) hjoin]
  · simp only [← hbody, hcut, reduceCtorEq, false_and, exists_false, and_false]
    exact iff_of_false hnot id

theorem Understands.whole {r : ClientRequest} {rs : List ClientRequest} {b : Bytes}
    (hrs : Understands env rs) (hc : c.Receiving r.parsed b)
    (halive : ∀ r' ∈ (r :: rs).dropLast, KeepsAlive env r'.request)
    (hreads : ∀ d ∈ reads, d ≠ []) (hflat : b ++ reads.flatten = r.body ++ stream rs) :
    (c.settle env).Handles env reads
        (c.handled ++ r.request :: rs.map ClientRequest.request) ↔
      ∃ rest, restOfBody b reads r.body.length = some rest ∧ Framed false rs rest := by
  have henough : contentLength r.parsed ≤ (b ++ reads.flatten).length := by
    rw [r.length_eq, hflat, List.length_append]
    omega
  rw [← r.length_eq]
  obtain ⟨c', u, rest, hcut, hc', hu, hjoin, hne, hiff⟩ | ⟨hcut, hnot⟩ :=
    hc.handles_cases env (x := r.request) hreads henough r.length_eq.symm
      (rs.map ClientRequest.request)
  · obtain ⟨hbody, hrest⟩ := List.append_inj (hjoin.trans hflat) (hu.trans r.length_eq)
    have hnext := hrs.next false hc' halive hne fun _ => hrest
    simp only [hcut, Option.some.injEq, exists_eq_left']
    rw [hiff, hnext, and_iff_right hbody]
  · simp only [hcut, reduceCtorEq, false_and, exists_false]
    exact iff_of_false hnot id

/-- A line feed before a request with a known method changes its type. -/
theorem Receiving.not_handles_of_type {r : ClientRequest} {b : Bytes} {xs : List Request}
    (hc : c.Receiving (r.seen true) b) (hreads : ∀ d ∈ reads, d ≠ [])
    (henough : r.body.length ≤ (b ++ reads.flatten).length)
    (htype : r.parsed.type ≠ .another) :
    ¬ (c.settle env).Handles env reads (c.handled ++ r.request :: xs) := by
  intro h
  rw [← r.contentLength_seen true] at henough
  exact htype (hc.type_of_handles hreads henough h).symm

/-- The requests of a stream are found, whatever was handled before them, exactly when the
reads are framed. -/
theorem understands (henv : Passes env) (rs : List ClientRequest)
    (halive : ∀ r ∈ rs.dropLast, KeepsAlive env r.request) : Understands env rs := by
  induction rs with
  | nil =>
    intro c reads stray hc hreads hflat
    rw [stream, List.flatMap_nil, List.append_nil] at hflat
    exact iff_of_true (hc.handles_nil env hflat) trivial
  | cons r rs ih =>
    intro c reads stray hc hreads hflat
    have hrs : Understands env rs := by
      apply ih
      cases rs with
      | nil => simp
      | cons r' rs => exact fun r'' hr'' => halive r'' (List.mem_cons_of_mem _ hr'')
    have hcollect : c.Collecting [] := hc.resolve_right fun h => by cases h.1
    have hflat' : reads.flatten =
        lineFeed stray ++ (r.head ++ [13, 10] ++ (r.body ++ stream rs)) := by
      rw [hflat]
      simp [stream, ClientRequest.sent]
    rw [List.map_cons]
    by_cases hroom : stray = true → r.first.length < httpMaxSingleLine
    swap
    · -- the first line is too long now
      rw [Classical.not_imp] at hroom
      obtain ⟨rfl, hroom⟩ := hroom
      obtain ⟨c', hfeed, hsame⟩ := hcollect.feed_refused env r hroom hreads hflat'
      exact iff_of_false (not_handles_of_same hfeed hsame) fun hframed => hroom (hframed.1 rfl).2
    obtain ⟨c₁, b, after, hfeed, hc₁, hsame, hafter, hcut⟩ :=
      hcollect.feed_header henv r stray hroom hreads hflat'
    simp only [Handles, hfeed, ← hsame]
    change (c₁.settle env).Handles env after _ ↔ _
    by_cases htype : stray = true → r.parsed.type = .another
    swap
    · rw [Classical.not_imp] at htype
      obtain ⟨rfl, htype⟩ := htype
      refine iff_of_false (hc₁.not_handles_of_type hafter ?_ htype)
        fun hframed => htype (hframed.1 rfl).1
      obtain ⟨-, rfl, hrest⟩ | ⟨-, hrest, -⟩ := hcut
      · rw [List.nil_append, hrest, List.length_cons, List.length_append]
        omega
      · rw [hrest, List.length_append]
        omega
    rw [r.seen_eq stray htype] at hc₁
    rw [Framed, and_iff_right fun h => ⟨htype h, hroom h⟩]
    obtain ⟨hend, rfl, hrest⟩ | ⟨hend, hrest, hbody⟩ := hcut
    · simp only [hend]
      exact hrs.late hc₁ halive hafter hrest
    · simp only [hend, hbody]
      exact hrs.whole hc₁ halive hafter hrest

end HttpConnection

def AsksKeepalive (request : Request) : Prop :=
  request.version = .version11 ∧
    strcmpDoNotCase (request.header.get (bytes "connection") (bytes "close"))
      (bytes "keep-alive") = true

namespace HttpServiceImpl

/-- The callbacks of the user do not interfere: filters let requests pass as they are, and
servlets do not take back that the connection is to stay open. -/
structure Transparent (serv : HttpServiceImpl) : Prop where
  filters : ∀ f ∈ serv.filters, ∀ request response,
    (f.2 request response).1 = true ∧ (f.2 request response).2.1 = request
  servlets : ∀ s ∈ serv.servlets, ∀ request response, AsksKeepalive request →
    AsksKeepalive (s.2 request response).1

variable {serv : HttpServiceImpl} {host : Host}

theorem filterLoop_passes {filters : List (Bytes × FilterCallback)}
    (hfilters : ∀ f ∈ filters, ∀ request response,
      (f.2 request response).1 = true ∧ (f.2 request response).2.1 = request)
    {h : Handleable} (hconn : h.connType = .none) :
    (filterLoop filters h).request = h.request ∧ (filterLoop filters h).connType = .none := by
  induction filters generalizing h with
  | nil => exact ⟨rfl, hconn⟩
  | cons f filters ih =>
    obtain ⟨hpass, hsame⟩ := hfilters f List.mem_cons_self h.request h.response
    have hrest : ∀ f ∈ filters, _ := fun f hf => hfilters f (List.mem_cons_of_mem _ hf)
    simp only [filterLoop, hpass, if_true]
    split
    · obtain ⟨hrequest, hnone⟩ := ih hrest (h := { h.withCallback
        (f.2 h.request h.response).2 with connType := .none }) rfl
      exact ⟨hrequest.trans hsame, hnone⟩
    · exact ih hrest hconn

theorem Transparent.passes (hserv : serv.Transparent) : HttpConnection.Passes (serv.env host) := by
  intro h hconn
  obtain ⟨hrequest, hnone⟩ := filterLoop_passes hserv.filters hconn
  refine ⟨hrequest, fun hfilter => ?_⟩
  rw [show ((serv.env host).handleFilter h).connType = .none from hnone] at hfilter
  cases hfilter

theorem chooseRanges_request (h : Handleable) : (chooseRanges h).1.request = h.request := by
  simp only [chooseRanges]
  split
  · rfl
  · split <;> rfl
  · split <;> rfl

theorem chooseType_request (filename : Bytes) (h : Handleable) :
    (serv.chooseType filename h).request = h.request := by
  simp only [chooseType]
  split
  · rfl
  · split <;> rfl

theorem download_request (filename : Bytes) (h : Handleable) :
    (serv.download host filename h).request = h.request := by
  simp only [download]
  split
  · rfl
  · split
    · rfl
    · split
      · exact (chooseRanges_request _).trans (chooseType_request _ _)
      · exact (chooseRanges_request _).trans (chooseType_request _ _)

theorem Transparent.invoke (hserv : serv.Transparent) {h : Handleable}
    (hask : AsksKeepalive h.request) : AsksKeepalive (serv.invoke h).request := by
  simp only [HttpServiceImpl.invoke]
  split
  · exact hask
  · rename_i servlet hlookup
    have hmem : (h.request.uri, servlet) ∈ serv.servlets := by
      obtain ⟨before, after, hsplit, -⟩ := List.lookup_eq_some_iff.mp hlookup
      rw [hsplit]
      simp
    exact hserv.servlets _ hmem h.request h.response hask

theorem uniHandle_keepalive {h : Handleable} (hask : AsksKeepalive h.request) :
    (serv.uniHandle h).keepalive = true := by
  have hfields : (serv.uniFields h).keepalive = true := by
    simp [uniFields, hask.1, hask.2, Handleable.set]
  simp only [uniHandle]
  split
  · exact hfields
  · split
    · exact hfields
    · split <;> exact hfields

theorem Transparent.keepsAlive (hserv : serv.Transparent) {request : Request}
    (hask : AsksKeepalive request) : HttpConnection.KeepsAlive (serv.env host) request := by
  rintro h rfl
  change (serv.handleRequest host h).keepalive = true
  simp only [handleRequest]
  split
  · exact uniHandle_keepalive (by rwa [download_request])
  · split
    · exact uniHandle_keepalive (hserv.invoke hask)
    · exact uniHandle_keepalive (by rwa [download_request])
    · exact uniHandle_keepalive hask

structure Cut (octets : Bytes) where
  reads : List Bytes
  size : ∀ d ∈ reads, 1 ≤ d.length ∧ d.length ≤ mtuValue
  flatten_eq : reads.flatten = octets

/-- The service gets the requests of a client exactly when the reads are framed. -/
theorem requests_found_iff (hserv : serv.Transparent) (host : Host) (rs : List ClientRequest)
    (halive : ∀ r ∈ rs.dropLast, AsksKeepalive r.request) (cut : Cut (stream rs)) :
    HttpConnection.Handles (serv.env host) {} cut.reads (rs.map ClientRequest.request) ↔
      Framed false rs cut.reads := by
  have hreads : ∀ d ∈ cut.reads, d ≠ [] := fun d hd =>
    List.ne_nil_of_length_pos (cut.size d hd).1
  have hopen : HttpConnection.Open {} rs := .inl HttpConnection.collecting_new
  have hrs : HttpConnection.Understands (serv.env host) rs :=
    HttpConnection.understands hserv.passes rs fun r hr => hserv.keepsAlive (halive r hr)
  exact hrs {} cut.reads false hopen hreads cut.flatten_eq

/-- `GET /` on a connection that is to stay open. -/
def getRequest : ClientRequest where
  first := bytes "GET / HTTP/1.1"
  fields := [bytes "connection: keep-alive"]
  body := []
  parsed := {
    header := ({} : Header).set (bytes "connection") (bytes "keep-alive")
    type := .get
    url := bytes "/" }
  plain := by unfold PlainLine; decide +kernel
  parses := by decide +kernel
  length_eq := by decide +kernel

/-- A `POST` with a body. -/
def postRequest : ClientRequest where
  first := bytes "POST /a HTTP/1.1"
  fields := [bytes "content-length: 2"]
  body := bytes "hi"
  parsed := {
    header := ({} : Header).set (bytes "content-length") (bytes "2")
    type := .post
    url := bytes "/a" }
  plain := by unfold PlainLine; decide +kernel
  parses := by decide +kernel
  length_eq := by decide +kernel

def twoRequests : List ClientRequest := [getRequest, postRequest]

def pieceReads : List ℕ → Bytes → List Bytes
  | [], rest => if rest.isEmpty then [] else [rest]
  | n :: ns, octets => octets.take n :: pieceReads ns (octets.drop n)

/-- The first header comes in two reads, the second one with a part of its body. -/
def framedCut : Cut (stream twoRequests) where
  reads := pieceReads [7, 35, 40] (stream twoRequests)
  size := by decide +kernel
  flatten_eq := by decide +kernel

/-- The first read ends before the last octet of the first header. -/
def splitCut : Cut (stream twoRequests) where
  reads := pieceReads [41] (stream twoRequests)
  size := by decide +kernel
  flatten_eq := by decide +kernel

def wholeCut : Cut (stream twoRequests) where
  reads := [stream twoRequests]
  size := by decide +kernel
  flatten_eq := by decide +kernel

def noFiles : Host where
  exist _ := false
  isRegularFile _ := false
  isDirectory _ := false
  create _ := none
  fileSize _ := 0
  lastModified _ := []
  formatExpires _ := []
  indet _ := 0

theorem fileService_transparent : fileService.Transparent where
  filters f hf := by cases hf
  servlets s hs := by cases hs

theorem requests_found_framed :
    HttpConnection.Handles (fileService.env noFiles) {} framedCut.reads
      (twoRequests.map ClientRequest.request) := by
  refine (requests_found_iff fileService_transparent noFiles twoRequests ?_ framedCut).mpr ?_
  · simp only [twoRequests, List.dropLast_cons_cons, List.dropLast_singleton, List.mem_singleton,
      forall_eq]
    exact ⟨rfl, by decide +kernel⟩
  · have hfirst : restAt framedCut.reads (getRequest.head.length + 1) = none := by decide +kernel
    have hnext : restAt framedCut.reads (getRequest.head.length + 2) =
        some (pieceReads [40] postRequest.sent) := by decide +kernel
    have hsecond : restAt (pieceReads [40] postRequest.sent) (postRequest.head.length + 1) =
        none := by decide +kernel
    have hend : restAt (pieceReads [40] postRequest.sent)
        (postRequest.head.length + 2 + postRequest.body.length) = some [] := by decide +kernel
    have hempty : getRequest.body.length = 0 := rfl
    simp [twoRequests, Framed, hfirst, hnext, hsecond, hend, hempty]

def handledTypes (reads : List Bytes) : Option (List RequestType) :=
  (HttpConnection.feed (fileService.env noFiles) {} reads).toOption.map fun c =>
    c.handled.map fun request => request.type

theorem handledTypes_of_handles {reads : List Bytes} {requests : List Request}
    (h : HttpConnection.Handles (fileService.env noFiles) {} reads requests) :
    handledTypes reads = some (requests.map fun request => request.type) := by
  obtain ⟨c, hfeed, rfl⟩ := h
  rw [handledTypes, hfeed]
  rfl

/-- The same octets in other reads. A line feed that comes late makes the second method
unknown, and of requests that come together none is handled. -/
theorem requests_lost :
    ¬ HttpConnection.Handles (fileService.env noFiles) {} splitCut.reads
        (twoRequests.map ClientRequest.request) ∧
      ¬ HttpConnection.Handles (fileService.env noFiles) {} wholeCut.reads
        (twoRequests.map ClientRequest.request) := by
  constructor
  · intro h
    have htypes : handledTypes splitCut.reads = some [.get, .another] := by decide +kernel
    rw [handledTypes_of_handles h] at htypes
    revert htypes
    decide +kernel
  · intro h
    have htypes : handledTypes wholeCut.reads = some [] := by decide +kernel
    rw [handledTypes_of_handles h] at htypes
    revert htypes
    decide +kernel

end HttpServiceImpl
end Sese.Service.Http
