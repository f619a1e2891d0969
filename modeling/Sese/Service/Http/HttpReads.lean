import Sese.Foundation.Segments
import Sese.Service.Http.HttpConnection

/-!
# The reads of a connection of HTTP/1

What the reads of a connection do to it, in terms of the octets that it has read. While
a header is collected, the buffer holds these octets, and the flag is what the loop over
all of them would give. While a body is received, every read is added to it, and the
first one that makes it long enough ends it.
-/
namespace Sese.Service.Http

open Foundation
open Sese.Net.Http

namespace HttpConnection

theorem scanHeader_append (flag : Bool) (a b : Bytes) :
    scanHeader flag (a ++ b) =
      if (scanHeader flag a).2 then (false, true) else scanHeader (scanHeader flag a).1 b := by
  induction a generalizing flag with
  | nil => rfl
  | cons x a ih =>
    simp only [List.cons_append, scanHeader]
    split
    · rfl
    · exact ih _

theorem scanHeader_left {flag : Bool} {a b : Bytes} (h : (scanHeader flag (a ++ b)).2 = false) :
    (scanHeader flag a).2 = false := by
  rw [scanHeader_append] at h
  by_contra hfound
  rw [Bool.not_eq_false] at hfound
  rw [if_pos hfound] at h
  cases h

theorem scanHeader_found {flag : Bool} {a : Bytes} (h : (scanHeader flag a).2 = true) :
    scanHeader flag a = (false, true) := by
  have happ := scanHeader_append flag a []
  rwa [List.append_nil, if_pos h] at happ

theorem scanHeader_within {line rest : Bytes} (hcr : (13 : UInt8) ∉ line)
    (hlf : (10 : UInt8) ∉ line) : scanHeader false (line ++ rest) = scanHeader false rest := by
  induction line with
  | nil => rfl
  | cons b line ih =>
    rw [List.mem_cons, not_or] at hcr hlf
    have hb : decide (b = 10) = false := by simpa using Ne.symm hlf.1
    simp only [List.cons_append, scanHeader, hb, Bool.false_and]
    exact ih hcr.2 hlf.2

theorem scanHeader_line {line : Bytes} (h : PlainLine line) (flag : Bool) (rest : Bytes) :
    scanHeader flag (line ++ 13 :: 10 :: rest) = scanHeader true rest := by
  obtain ⟨hne, hcr, hlf⟩ := h
  cases line with
  | nil => exact absurd rfl hne
  | cons b line =>
    rw [List.mem_cons, not_or] at hcr hlf
    have hlf' : decide (b = 10) = false := by simpa using Ne.symm hlf.1
    have hcr' : decide (b = 13) = false := by simpa using Ne.symm hcr.1
    have hstep : scanHeader flag (b :: line ++ 13 :: 10 :: rest) =
        scanHeader false (line ++ 13 :: 10 :: rest) := by
      simp [scanHeader, hlf', hcr']
    rw [hstep, scanHeader_within hcr.2 hlf.2]
    rfl

/-- Lines leave the flag set; no end of a header is found in them. -/
theorem scanHeader_lines {line : Bytes} {lines : List Bytes}
    (h : ∀ l ∈ line :: lines, PlainLine l) (flag : Bool) :
    scanHeader flag (sentLines (line :: lines)) = (true, false) := by
  induction lines generalizing line flag with
  | nil =>
    have hline := scanHeader_line (h line List.mem_cons_self) flag []
    simpa [sentLines, scanHeader] using hline
  | cons next lines ih =>
    have hline := scanHeader_line (h line List.mem_cons_self) flag (sentLines (next :: lines))
    have hrest := ih (fun l hl => h l (List.mem_cons_of_mem _ hl)) true
    rw [← hrest, ← hline]
    simp [sentLines]

def afterWrites (c : HttpConnection) : HttpConnection :=
  if c.phase = .write then c.checkKeepalive else c

theorem written_eq (env : Env) (c : HttpConnection) :
    (if c.phase = .write then c.step env .written else return c) = .ok c.afterWrites := by
  simp only [afterWrites, step]
  split <;> rfl

theorem deliver_readHeader {env : Env} {c : HttpConnection} {data : Bytes}
    (h : c.phase = .readHeader) :
    c.deliver env data = c.onReadHeader env data >>= fun c => .ok c.afterWrites := by
  have hread : c.step env (.read data) = c.onReadHeader env data := by
    simp only [step, h]
  simp only [deliver, hread, written_eq, h, reduceCtorEq, if_false]

theorem deliver_readBody {env : Env} {c : HttpConnection} {data : Bytes}
    (h : c.phase = .readBody) :
    c.deliver env data = c.onReadBody env data >>= fun c => .ok c.afterWrites := by
  have hread : c.step env (.read data) = c.onReadBody env data := by
    simp only [step, h]
  simp only [deliver, hread, written_eq, h, reduceCtorEq, if_false]

theorem deliver_closed {env : Env} {c : HttpConnection} {data : Bytes} (h : c.phase = .closed) :
    c.deliver env data = .ok c := by
  simp [deliver, h]

def answer (env : Env) (c : HttpConnection) : HttpConnection :=
  (c.handleRequest env).checkKeepalive

theorem afterWrites_handleRequest (env : Env) (c : HttpConnection) :
    (c.handleRequest env).afterWrites = c.answer env := if_pos rfl

theorem afterWrites_of_ne {c : HttpConnection} (h : c.phase ≠ .write) : c.afterWrites = c :=
  if_neg h

theorem moveBody_handled {c c' : HttpConnection} {n : ℕ} (h : c.moveBody n = .ok c') :
    c'.handled = c.handled := by
  simp only [moveBody] at h
  split at h
  · obtain rfl := Except.ok.inj h
    rfl
  · obtain ⟨r, -, hr⟩ := bind_eq_ok.mp h
    obtain rfl := Except.ok.inj hr
    rfl

theorem moveRest_handled {c c' : HttpConnection} (h : c.moveRest = .ok c') :
    c'.handled = c.handled := by
  simp only [moveRest] at h
  split at h
  · obtain rfl := Except.ok.inj h
    rfl
  · exact moveBody_handled h

theorem enterBody_handled {env : Env} {c c' : HttpConnection} (h : c.enterBody env = .ok c') :
    c.handled <+: c'.handled := by
  obtain ⟨c₁, hmove, hc'⟩ := bind_eq_ok.mp h
  have hsame := moveRest_handled hmove
  simp only at hc'
  split at hc'
  · obtain rfl := Except.ok.inj hc'
    exact ⟨[], by simpa using hsame.symm⟩
  · obtain rfl := Except.ok.inj hc'
    exact ⟨[c₁.request], by simp [handleRequest, hsame]⟩

theorem onReadHeader_handled {env : Env} {c c' : HttpConnection} {data : Bytes}
    (h : c.onReadHeader env data = .ok c') : c.handled <+: c'.handled := by
  simp only [onReadHeader] at h
  split at h
  · obtain rfl := Except.ok.inj h
    exact List.prefix_rfl
  · obtain ⟨r, -, hr⟩ := bind_eq_ok.mp h
    split at hr
    · obtain rfl := Except.ok.inj hr
      exact List.prefix_rfl
    · have hprefix := enterBody_handled hr
      exact hprefix

theorem onReadBody_handled {env : Env} {c c' : HttpConnection} {data : Bytes}
    (h : c.onReadBody env data = .ok c') : c.handled <+: c'.handled := by
  obtain ⟨c₁, hmove, hc'⟩ := bind_eq_ok.mp h
  have hsame := moveBody_handled hmove
  simp only at hc'
  split at hc'
  · obtain rfl := Except.ok.inj hc'
    exact ⟨[c₁.request], by simp [handleRequest, hsame]⟩
  · obtain rfl := Except.ok.inj hc'
    exact ⟨[], by simpa using hsame.symm⟩

theorem checkKeepalive_handled (c : HttpConnection) : c.checkKeepalive.handled = c.handled := by
  simp only [checkKeepalive]
  split <;> rfl

theorem step_handled {env : Env} {c c' : HttpConnection} {e : Event}
    (h : c.step env e = .ok c') : c.handled <+: c'.handled := by
  cases e with
  | read data =>
    simp only [step] at h
    split at h
    · exact onReadHeader_handled h
    · exact onReadBody_handled h
    · cases h
  | written =>
    simp only [step] at h
    split at h
    · obtain rfl := Except.ok.inj h
      rw [checkKeepalive_handled]
    · cases h
  | failed =>
    simp only [step] at h
    split at h
    · cases h
    · obtain rfl := Except.ok.inj h
      exact List.prefix_rfl

theorem deliver_handled {env : Env} {c c' : HttpConnection} {data : Bytes}
    (h : c.deliver env data = .ok c') : c.handled <+: c'.handled := by
  simp only [deliver] at h
  split at h
  · obtain rfl := Except.ok.inj h
    exact List.prefix_rfl
  · obtain ⟨c₁, hread, hc'⟩ := bind_eq_ok.mp h
    have hfirst := step_handled hread
    split at hc'
    · exact hfirst.trans (step_handled hc')
    · obtain rfl := Except.ok.inj hc'
      exact hfirst

theorem feed_handled {env : Env} {c c' : HttpConnection} {reads : List Bytes}
    (h : c.feed env reads = .ok c') : c.handled <+: c'.handled := by
  induction reads generalizing c with
  | nil =>
    obtain rfl := Except.ok.inj h
    exact List.prefix_rfl
  | cons data reads ih =>
    obtain ⟨c₁, hdeliver, hrest⟩ := bind_eq_ok.mp h
    exact (deliver_handled hdeliver).trans (ih hrest)

theorem feed_closed {env : Env} {c : HttpConnection} (h : c.phase = .closed)
    (reads : List Bytes) : c.feed env reads = .ok c := by
  induction reads with
  | nil => rfl
  | cons data reads ih => rw [feed, deliver_closed h, ok_bind, ih]

/-- The connection has read `p` of a header, and the end is not in it. -/
structure Collecting (c : HttpConnection) (p : Bytes) : Prop where
  phase : c.phase = .readHeader
  scan : scanHeader false p = (c.is0x0a, false)
  buffer : p = [] ∧ c.ioBuffer = {} ∨ c.ioBuffer.Holds p
  connType : c.connType = .none
  headers : c.request.header.headers = .empty
  body : c.request.body = []

theorem collecting_new : Collecting {} [] where
  phase := rfl
  scan := rfl
  buffer := .inl ⟨rfl, rfl⟩
  connType := rfl
  headers := rfl
  body := rfl

variable {c : HttpConnection} {p data : Bytes}

theorem Collecting.push (h : c.Collecting p) (data : Bytes) :
    (c.ioBuffer.push { data := data }).Holds (p ++ data) := by
  obtain ⟨rfl, hbuf⟩ | hbuf := h.buffer
  · rw [hbuf]
    exact IOBuf.holds_push_empty _ rfl
  · exact hbuf.push _ rfl

/-- The flag after a read is the flag after everything that was read of the header. -/
theorem Collecting.scanHeader_eq (h : c.Collecting p) (data : Bytes) :
    scanHeader c.is0x0a data = scanHeader false (p ++ data) := by
  rw [scanHeader_append, h.scan]
  rfl

theorem Collecting.deliver (env : Env) (h : c.Collecting p)
    (hscan : (scanHeader false (p ++ data)).2 = false) :
    ∃ c', c.deliver env data = .ok c' ∧ c'.Collecting (p ++ data) ∧ c'.handled = c.handled := by
  refine ⟨{ c with
    keepalive := false
    is0x0a := (scanHeader false (p ++ data)).1
    ioBuffer := c.ioBuffer.push { data := data } }, ?_, ?_, rfl⟩
  · rw [deliver_readHeader h.phase, onReadHeader, h.scanHeader_eq, hscan]
    exact congrArg Except.ok (afterWrites_of_ne (by simp [h.phase]))
  · exact {
      phase := h.phase
      scan := Prod.ext rfl hscan
      buffer := .inr (h.push data)
      connType := h.connType
      headers := h.headers
      body := h.body }

theorem Collecting.feed (env : Env) {reads : List Bytes} (h : c.Collecting p)
    (hscan : (scanHeader false (p ++ reads.flatten)).2 = false) :
    ∃ c', c.feed env reads = .ok c' ∧ c'.Collecting (p ++ reads.flatten) ∧
      c'.handled = c.handled := by
  induction reads generalizing c p with
  | nil => exact ⟨c, rfl, by simpa using h, rfl⟩
  | cons data reads ih =>
    rw [List.flatten_cons, ← List.append_assoc] at hscan ⊢
    obtain ⟨c₁, hdeliver, hc₁, hsame⟩ := h.deliver env (scanHeader_left hscan)
    obtain ⟨c', hfeed, hc', hhandled⟩ := ih hc₁ hscan
    exact ⟨c', by simp [HttpConnection.feed, hdeliver, hfeed], hc', hhandled.trans hsame⟩

/-- The header `q` was parsed, and `b` of its body was read. -/
structure Receiving (c : HttpConnection) (q : Request) (b : Bytes) : Prop where
  connType : c.connType ≠ .filter
  request : c.request = { q with body := b }
  expectLength : c.expectLength = contentLength q
  realLength : c.realLength = b.length
  is0x0a : c.is0x0a = false
  buffer : c.ioBuffer = {} ∨ c.ioBuffer.Holds []

/-- The end of the callback of `readHeader`. -/
def settle (env : Env) (c : HttpConnection) : HttpConnection :=
  if c.expectLength ≠ c.realLength then { c with phase := .readBody } else c.answer env

variable {q : Request} {b : Bytes}

theorem answer_handled (env : Env) (c : HttpConnection) :
    (c.answer env).handled = c.handled ++ [c.request] := by
  simp only [answer, checkKeepalive]
  split <;> rfl

theorem answer_closed {env : Env} (h : (env.handleRequest c.toHandleable).keepalive = false) :
    (c.answer env).phase = .closed := by
  simp [answer, checkKeepalive, handleRequest, h]

theorem Receiving.answer_collecting {env : Env} (hc : c.Receiving q b)
    (h : (env.handleRequest c.toHandleable).keepalive = true) :
    (c.answer env).Collecting [] := by
  have heq : c.answer env = { (c.handleRequest env).reset with phase := .readHeader } := by
    simp [answer, checkKeepalive, handleRequest, h]
  rw [heq]
  exact {
    phase := rfl
    scan := Prod.ext hc.is0x0a.symm rfl
    buffer := hc.buffer.imp_left fun hbuf => ⟨rfl, hbuf⟩
    connType := rfl
    headers := rfl
    body := rfl }

theorem moveBody_eq {u : Bytes} {n : ℕ} (hfilter : c.connType ≠ .filter)
    (hu : c.ioBuffer.Holds u) (hn : n ≤ u.length) :
    ∃ buf : IOBuf, c.moveBody n = .ok { c with
          request := { c.request with body := c.request.body ++ u.take n }
          ioBuffer := buf } ∧ buf.Holds (u.drop n) := by
  obtain ⟨buf, hmove, hbuf⟩ := IOBuf.reads.streamMove_eq c.request.body hu hn
  exact ⟨buf, by simp [moveBody, hfilter, hmove], hbuf⟩

theorem Receiving.moveBody (hc : c.Receiving q b) (data : Bytes) :
    ∃ c', HttpConnection.moveBody { c with
          realLength := c.realLength + data.length
          ioBuffer := c.ioBuffer.push { data := data } } data.length = .ok c' ∧
      c'.Receiving q (b ++ data) ∧ c'.phase = c.phase ∧ c'.handled = c.handled := by
  have hholds : (c.ioBuffer.push { data := data }).Holds data := by
    obtain hbuf | hbuf := hc.buffer
    · rw [hbuf]
      exact IOBuf.holds_push_empty _ rfl
    · simpa using hbuf.push { data := data } rfl
  obtain ⟨buf, hmove, hbuf⟩ := moveBody_eq (c := { c with
    realLength := c.realLength + data.length
    ioBuffer := c.ioBuffer.push { data := data } }) hc.connType hholds le_rfl
  refine ⟨_, hmove, ?_, rfl, rfl⟩
  exact {
    connType := hc.connType
    request := by simp [hc.request]
    expectLength := hc.expectLength
    realLength := by simp [hc.realLength]
    is0x0a := hc.is0x0a
    buffer := .inr (by simpa using hbuf) }

theorem Receiving.deliver_short (env : Env) (hc : c.Receiving q b) (hphase : c.phase = .readBody)
    (hlen : (b ++ data).length < contentLength q) :
    ∃ c', c.deliver env data = .ok c' ∧ c'.Receiving q (b ++ data) ∧ c'.phase = .readBody ∧
      c'.handled = c.handled := by
  obtain ⟨c', hmove, hc', hphase', hhandled⟩ := hc.moveBody data
  have hlt : ¬ c'.realLength ≥ c'.expectLength := by
    rw [hc'.realLength, hc'.expectLength]
    omega
  refine ⟨c', ?_, hc', hphase'.trans hphase, hhandled⟩
  rw [deliver_readBody hphase, onReadBody, hmove, ok_bind, if_neg hlt, pure_eq_ok, ok_bind,
    afterWrites_of_ne (by simp [hphase', hphase])]

theorem Receiving.deliver_enough (env : Env) (hc : c.Receiving q b) (hphase : c.phase = .readBody)
    (hlen : contentLength q ≤ (b ++ data).length) :
    ∃ c' : HttpConnection, c.deliver env data = .ok (c'.answer env) ∧ c'.Receiving q (b ++ data) ∧
      c'.handled = c.handled := by
  obtain ⟨c', hmove, hc', hphase', hhandled⟩ := hc.moveBody data
  have hge : c'.realLength ≥ c'.expectLength := by
    rw [hc'.realLength, hc'.expectLength]
    exact hlen
  refine ⟨{ c' with ioBuffer := {} }, ?_, { hc' with buffer := .inl rfl }, hhandled⟩
  rw [deliver_readBody hphase, onReadBody, hmove, ok_bind, if_pos hge, pure_eq_ok, ok_bind,
    afterWrites_handleRequest]
  rfl

theorem Receiving.feed_short (env : Env) {reads : List Bytes} (hc : c.Receiving q b)
    (hphase : c.phase = .readBody) (hlen : (b ++ reads.flatten).length < contentLength q) :
    ∃ c', c.feed env reads = .ok c' ∧ c'.Receiving q (b ++ reads.flatten) ∧
      c'.phase = .readBody ∧ c'.handled = c.handled := by
  induction reads generalizing c b with
  | nil => exact ⟨c, rfl, by simpa using hc, hphase, rfl⟩
  | cons data reads ih =>
    rw [List.flatten_cons, ← List.append_assoc] at hlen ⊢
    have hshort : (b ++ data).length < contentLength q := by
      rw [List.length_append] at hlen
      omega
    obtain ⟨c₁, hdeliver, hc₁, hphase₁, hsame⟩ := hc.deliver_short env hphase hshort
    obtain ⟨c', hfeed, hc', hphase', hhandled⟩ := ih hc₁ hphase₁ hlen
    exact ⟨c', by simp [feed, hdeliver, hfeed], hc', hphase', hhandled.trans hsame⟩

theorem feed_append (env : Env) (c : HttpConnection) (reads more : List Bytes) :
    c.feed env (reads ++ more) = c.feed env reads >>= fun c => c.feed env more := by
  induction reads generalizing c with
  | nil => rfl
  | cons data reads ih =>
    simp only [List.cons_append, feed]
    cases c.deliver env data with
    | error e => rfl
    | ok c => exact ih c

/-- The reads after `b` of a body of `n` octets, if one of them ends with the body. -/
def restOfBody (b : Bytes) (reads : List Bytes) (n : ℕ) : Option (List Bytes) :=
  if b.length ≤ n then restAt reads (n - b.length) else none

theorem Receiving.settle_of_ne (env : Env) (hc : c.Receiving q b)
    (hne : contentLength q ≠ b.length) : c.settle env = { c with phase := .readBody } := by
  rw [settle, hc.expectLength, hc.realLength, if_pos hne]

theorem Receiving.settle_of_eq (env : Env) (hc : c.Receiving q b)
    (heq : contentLength q = b.length) : c.settle env = c.answer env := by
  rw [settle, hc.expectLength, hc.realLength, if_neg (not_not_intro heq)]

/-- A body is read on to the first read that reaches its end. -/
theorem Receiving.feed_enough (env : Env) {reads : List Bytes} (hc : c.Receiving q b)
    (hphase : c.phase = .readBody) (hreads : ∀ d ∈ reads, d ≠ [])
    (hlt : b.length < contentLength q) (henough : contentLength q ≤ (b ++ reads.flatten).length) :
    ∃ (c' : HttpConnection) (u : Bytes) (rest : List Bytes),
      c.feed env reads = (c'.answer env).feed env rest ∧ c'.Receiving q u ∧
        c'.handled = c.handled ∧ u ++ rest.flatten = b ++ reads.flatten ∧
        (∀ d ∈ rest, d ≠ []) ∧
        restOfBody b reads (contentLength q) =
          if u.length = contentLength q then some rest else none := by
  rw [List.length_append] at henough
  have hle : contentLength q - b.length ≤ reads.flatten.length := by omega
  obtain ⟨before, d, after, rfl, hbefore, hd⟩ := exists_reaching (by omega) hle
  have hshort : (b ++ before.flatten).length < contentLength q := by
    rw [List.length_append]
    omega
  have hlong : contentLength q ≤ ((b ++ before.flatten) ++ d).length := by
    rw [List.length_append, List.length_append]
    omega
  obtain ⟨c₁, hfeed, hc₁, hphase₁, hsame₁⟩ := hc.feed_short env hphase hshort
  obtain ⟨c₂, hdeliver, hc₂, hsame₂⟩ := hc₁.deliver_enough env hphase₁ hlong
  refine ⟨c₂, _, after, ?_, hc₂, hsame₂.trans hsame₁, by simp, ?_, ?_⟩
  · rw [feed_append, hfeed, ok_bind, feed, hdeliver, ok_bind]
  · exact fun d hd => hreads d (by simp [hd])
  · have hrest := restAt_reaching (k := 0) hreads hbefore hd
    rw [restOfBody, if_pos hlt.le, ← Nat.add_zero (contentLength q - b.length), hrest]
    by_cases hexact : (b ++ before.flatten ++ d).length = contentLength q
    · rw [if_pos hexact, if_pos]
      · simp
      · simp only [List.length_append] at hexact
        omega
    · rw [if_neg hexact, if_neg]
      simp only [List.length_append] at hexact hlong
      omega

/-- What becomes of a body: it is handed over at the first read that makes it long enough,
with all of that read, and a body that is too long from the start gets one read more. -/
theorem Receiving.feed_settle (env : Env) {reads : List Bytes} (hc : c.Receiving q b)
    (hreads : ∀ d ∈ reads, d ≠ []) (henough : contentLength q ≤ (b ++ reads.flatten).length) :
    (∃ (c' : HttpConnection) (u : Bytes) (rest : List Bytes),
        (c.settle env).feed env reads = (c'.answer env).feed env rest ∧ c'.Receiving q u ∧
          c'.handled = c.handled ∧ u ++ rest.flatten = b ++ reads.flatten ∧
          (∀ d ∈ rest, d ≠ []) ∧
          restOfBody b reads (contentLength q) =
            if u.length = contentLength q then some rest else none) ∨
      (∃ c', (c.settle env).feed env reads = .ok c' ∧ c'.handled = c.handled ∧
        restOfBody b reads (contentLength q) = none) := by
  have hbody : ({ c with phase := .readBody } : HttpConnection).Receiving q b := { hc with }
  obtain hlt | heq | hgt := Nat.lt_trichotomy b.length (contentLength q)
  · rw [hc.settle_of_ne env hlt.ne']
    exact .inl (hbody.feed_enough env rfl hreads hlt henough)
  · -- the body was complete with the header
    refine .inl ⟨c, b, reads, by rw [hc.settle_of_eq env heq.symm], hc, rfl, rfl, hreads, ?_⟩
    rw [restOfBody, heq, if_pos le_rfl, if_pos rfl, Nat.sub_self, restAt_zero]
  · -- it has octets of the next request already
    have hnone : restOfBody b reads (contentLength q) = none := if_neg (by omega)
    rw [hc.settle_of_ne env hgt.ne]
    cases reads with
    | nil => exact .inr ⟨{ c with phase := .readBody }, rfl, rfl, hnone⟩
    | cons d after =>
      have hlong : contentLength q ≤ (b ++ d).length := by
        rw [List.length_append]
        omega
      obtain ⟨c₂, hdeliver, hc₂, hsame₂⟩ := hbody.deliver_enough env rfl hlong
      refine .inl ⟨c₂, _, after, ?_, hc₂, hsame₂, by simp, ?_, ?_⟩
      · rw [feed, hdeliver, ok_bind]
      · exact fun d hd => hreads d (by simp [hd])
      · rw [hnone, if_neg]
        rw [List.length_append]
        omega

def Passes (env : Env) : Prop :=
  ∀ h : Handleable, h.connType = .none →
    (env.handleFilter h).request = h.request ∧ (env.handleFilter h).connType ≠ .filter

theorem enterBody_eq {env : Env} (henv : Passes env) {extra : Bytes} (hconn : c.connType = .none)
    (hbody : c.request.body = []) (hflag : c.is0x0a = false)
    (hextra : Behind IOBuf.Holds IOBuf.Spent c.ioBuffer extra) :
    ∃ c' : HttpConnection,
      c.enterBody env = .ok (if c'.expectLength ≠ c'.realLength
        then { c' with phase := .readBody } else c'.handleRequest env) ∧
      c'.Receiving c.request extra.tail ∧ c'.handled = c.handled := by
  obtain ⟨hsame, hfilter⟩ := henv c.toHandleable hconn
  let c₁ : HttpConnection := { c with
    toHandleable := env.handleFilter c.toHandleable
    expectLength := contentLength c.request
    realLength := extra.tail.length }
  have hsize : c.ioBuffer.getReadableSize = extra.tail.length := by
    cases extra with
    | nil => exact IOBuf.Spent.getReadableSize hextra
    | cons x extra => exact IOBuf.Holds.getReadableSize hextra
  have hrequest : c₁.request = c.request := hsame
  have hmove : ∃ buf, c₁.moveRest =
      .ok { c₁ with request := { c.request with body := extra.tail }, ioBuffer := buf } := by
    by_cases hnil : extra.tail.length = 0
    · rw [moveRest, if_pos hnil, List.length_eq_zero_iff.mp hnil, ← hbody, ← hrequest]
      exact ⟨c.ioBuffer, rfl⟩
    · rw [moveRest, if_neg hnil]
      cases extra with
      | nil => exact absurd rfl hnil
      | cons x extra =>
        have hholds : c₁.ioBuffer.Holds extra := hextra
        obtain ⟨buf, hmove, -⟩ := moveBody_eq hfilter hholds le_rfl
        refine ⟨buf, hmove.trans ?_⟩
        rw [hrequest, hbody, List.take_length]
        rfl
  obtain ⟨buf, hmove⟩ := hmove
  refine ⟨{ c₁ with request := { c.request with body := extra.tail }, ioBuffer := {} }, ?_, ?_, rfl⟩
  · rw [enterBody, hsame, hsize]
    change c₁.moveRest >>= _ = _
    rw [hmove, ok_bind]
    simp only [IOBuf.clear]
    split <;> rfl
  · exact {
      connType := hfilter
      request := rfl
      expectLength := rfl
      realLength := rfl
      is0x0a := hflag
      buffer := .inl rfl }

theorem Collecting.deliver_end (env : Env) (h : c.Collecting p)
    (hfound : (scanHeader false (p ++ data)).2 = true) {status : Bool} {request : Request}
    {buf : IOBuf}
    (hrecv : recvRequest (c.ioBuffer.push { data := data }) c.request =
      .ok (status, request, buf)) :
    c.deliver env data =
      (let c' := { c with
          keepalive := false
          is0x0a := false
          request := request
          ioBuffer := buf }
        if status then c'.enterBody env >>= fun c => .ok c.afterWrites
        else .ok { c' with phase := .closed }) := by
  rw [deliver_readHeader h.phase, onReadHeader, h.scanHeader_eq, scanHeader_found hfound]
  simp only [hrecv]
  cases status with
  | false => rfl
  | true => rfl

theorem Collecting.deliver_accepted {env : Env} (henv : Passes env) (h : c.Collecting p)
    (hfound : (scanHeader false (p ++ data)).2 = true) {extra : Bytes} {buf : IOBuf}
    (hrecv : recvRequest (c.ioBuffer.push { data := data }) c.request = .ok (true, q, buf))
    (hbody : q.body = []) (hextra : Behind IOBuf.Holds IOBuf.Spent buf extra) :
    ∃ c' : HttpConnection, c.deliver env data = .ok (c'.settle env) ∧
      c'.Receiving q extra.tail ∧ c'.handled = c.handled := by
  obtain ⟨c', henter, hc', hsame⟩ := enterBody_eq henv (c := { c with
    keepalive := false
    is0x0a := false
    request := q
    ioBuffer := buf }) h.connType hbody rfl hextra
  refine ⟨c', ?_, hc', hsame⟩
  rw [h.deliver_end env hfound hrecv]
  simp only [if_true, henter, ok_bind]
  simp only [settle]
  split
  · rfl
  · exact congrArg Except.ok (afterWrites_handleRequest env c')

theorem Collecting.feed_to_end (env : Env) {reads : List Bytes} {head rest : Bytes}
    (h : c.Collecting []) (hreads : ∀ d ∈ reads, d ≠ [])
    (hhead : scanHeader false head = (true, false)) (hflat : reads.flatten = head ++ 13 :: rest) :
    ∃ (c' : HttpConnection) (p data : Bytes) (after : List Bytes) (extra : Bytes),
      c.feed env reads = (c'.deliver env data >>= fun c => c.feed env after) ∧
        c'.Collecting p ∧ c'.handled = c.handled ∧ p ++ data = head ++ 13 :: extra ∧
        extra ++ after.flatten = rest ∧ (∀ d ∈ after, d ≠ []) ∧
        ∀ k, restAt reads (head.length + 1 + k) =
          if extra.length ≤ k then restAt after (k - extra.length) else none := by
  obtain ⟨before, tail, extra, after, rfl, rfl, hafter⟩ := exists_segment hflat
  have hscan : (scanHeader false ([] ++ before.flatten)).2 = false := by
    have hprefix : (scanHeader false (before.flatten ++ tail)).2 = false := by rw [hhead]
    exact scanHeader_left hprefix
  obtain ⟨c', hfeed, hc', hsame⟩ := h.feed env hscan
  refine ⟨c', before.flatten, tail ++ 13 :: extra, after, extra, ?_, hc', hsame, ?_, hafter.symm,
    ?_, ?_⟩
  · rw [feed_append, hfeed, ok_bind, HttpConnection.feed]
  · rw [List.append_assoc]
  · exact fun d hd => hreads d (by simp [hd])
  · intro k
    have hlt : before.flatten.length < (before.flatten ++ tail).length + 1 := by
      rw [List.length_append]
      omega
    have hexcess : before.flatten.length + (tail ++ 13 :: extra).length =
        (before.flatten ++ tail).length + 1 + extra.length := by
      simp only [List.length_append, List.length_cons]
      omega
    rw [restAt_reaching hreads hlt (by omega), hexcess, Nat.add_sub_cancel_left]

end HttpConnection

end Sese.Service.Http
