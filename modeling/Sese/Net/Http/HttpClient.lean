import Sese.Net.Http.ResponseRoundTrip

/-!
# The HTTP client

The part of `HttpClient::Impl::request` that receives the response: the header is read octet by
octet, then the body, as far as `content-length` says, in pieces of any size. A body is read
for the callback and, after that, once more for the stream.
-/
namespace Sese.Net.Http

open Foundation
open Sese.Io

/-- A connection as the client sees it. `pending` are the octets that still come before it ends
or fails; `sizes i + 1` is the most that the read after `i` others gives. -/
structure Connection where
  pending : Bytes
  sizes : ℕ → ℕ := fun _ => 0
  closed : Bool := false

/-- `HttpClient::Impl::read` with `read_some`: some of the octets that are asked for, and nothing
for an error. -/
def Connection.read (connection : Connection) (len : ℕ) : Bytes × Connection :=
  if connection.closed then ([], connection)
  else
    let n := min len (connection.sizes 0 + 1)
    (connection.pending.take n, { connection with
      pending := connection.pending.drop n
      sizes := fun i => connection.sizes (i + 1) })

instance : InputStream Connection where
  read connection len := .ok (connection.read len)
  left connection := connection.pending.length

/-- A callback or a stream for the octets of a body: the pieces that it was given, and what it
returns for a piece after the earlier ones. -/
structure Sink where
  given : List Bytes := []
  answer : List Bytes → Bytes → ℤ := fun _ piece => piece.length

def Sink.write (sink : Sink) (piece : Bytes) : ℤ × Sink :=
  (sink.answer sink.given piece, { sink with given := sink.given ++ [piece] })

def Sink.Willing (sink : Sink) : Prop := ∀ given piece, sink.answer given piece = piece.length

def Sink.octets (sink : Sink) : Bytes := sink.given.flatten

theorem Sink.octets_write (sink : Sink) (piece : Bytes) :
    (sink.write piece).2.octets = sink.octets ++ piece := by
  rw [octets, octets, write, List.flatten_append, List.flatten_singleton]

/-- What is set for one request; `reset` forgets it afterwards. Without `setWriteData` the
stream is the body of the response. -/
structure Sinks where
  write_callback : Option Sink := none
  write_data : Sink := {}

def Sinks.chosen (sinks : Sinks) : Sink := sinks.write_callback.getD sinks.write_data

structure HttpClient where
  type : RequestType := .get
  cookies : CookieMap := .empty
  response : ResponseHeader := {}
  first : Bool := true
  connection : Connection

namespace HttpClient

/-- `MTU_VALUE`, the size of the buffer of a read. -/
def mtuValue : ℕ := 1472

/-- The loop of `readBodyByCallback` and `readBodyByData`; they differ in the sink only. -/
def readBodyLoop : ℕ → Connection → Sink → ℕ → ℕ → Except Fault (Bool × Sink × Connection)
  | 0, _, _, _, _ => .error .endlessLoop
  | fuel + 1, connection, sink, expect, real =>
    if real ≥ expect then .ok (true, sink, connection)
    else
      let need := min (expect - real) mtuValue
      let (piece, connection) := connection.read need
      if piece = [] then .ok (false, sink, connection)
      else
        let (wrote, sink) := sink.write piece
        if (piece.length : ℤ) ≠ wrote then .ok (false, sink, connection)
        else readBodyLoop fuel connection sink expect (real + piece.length)

def readBody (connection : Connection) (sink : Sink) (expect : ℕ) :
    Except Fault (Bool × Sink × Connection) :=
  readBodyLoop (expect + 1) connection sink expect 0

def readBodyByCallback (client : HttpClient) (sinks : Sinks) (callback : Sink) (expect : ℕ) :
    Except Fault (Bool × HttpClient × Sinks) := do
  let (status, callback, connection) ← readBody client.connection callback expect
  return (status, { client with connection := connection },
    { sinks with write_callback := some callback })

def readBodyByData (client : HttpClient) (sinks : Sinks) (expect : ℕ) :
    Except Fault (Bool × HttpClient × Sinks) := do
  let (status, write_data, connection) ← readBody client.connection sinks.write_data expect
  return (status, { client with connection := connection }, { sinks with write_data := write_data })

/-- Which of the two readers are called. There is no `else` between them. -/
def recvBody (client : HttpClient) (sinks : Sinks) (expect : ℤ) :
    Except Fault (Bool × HttpClient × Sinks) := do
  if client.type ≠ .head ∧ expect > 0 then
    match sinks.write_callback with
    | some callback =>
      let (status, client, sinks) ← readBodyByCallback client sinks callback expect.toNat
      if !status then return (false, client, sinks)
      else readBodyByData client sinks expect.toNat
    | none => readBodyByData client sinks expect.toNat
  else return (true, client, sinks)

def closes (client : HttpClient) : Bool :=
  strcmpDoNotCase (bytes "close") (client.response.header.get (bytes "connection") (bytes "close"))

/-- What follows the body: the connection may be closed, and the cookies are kept. -/
def finish (client : HttpClient) : HttpClient :=
  let client :=
    if client.closes then { client with
      first := true
      connection := { client.connection with closed := true } }
    else client
  { client with
    cookies := client.response.header.cookieEntries.foldl
      (fun cookies entry => CookieMap.add cookies entry.2) client.cookies }

/-- `request`, behind the body of the request. -/
def request (client : HttpClient) (sinks : Sinks) : Except Fault (Bool × HttpClient × Sinks) := do
  let (status, response, connection) ← recvResponse client.connection client.response
  let client := { client with response := response, connection := connection }
  if !status then return (false, client, sinks)
  else
    let expect := toInteger (response.header.get (bytes "content-length") (bytes "0"))
    let (status, client, sinks) ← client.recvBody sinks expect
    if !status then return (false, client, sinks)
    else return (true, client.finish, sinks)

end HttpClient

namespace Connection

variable {connection : Connection} {u : Bytes}

/-- The octets `u` are still to be read. -/
def Holds (connection : Connection) (u : Bytes) : Prop :=
  connection.closed = false ∧ connection.pending = u

theorem read_open (h : connection.closed = false) (len : ℕ) : connection.read len =
    (connection.pending.take (min len (connection.sizes 0 + 1)), { connection with
      pending := connection.pending.drop (min len (connection.sizes 0 + 1))
      sizes := fun i => connection.sizes (i + 1) }) := by
  rw [read, h]
  rfl

theorem read_eq (h : connection.Holds u) (len : ℕ) :
    ∃ n connection', connection.read len = (u.take n, connection') ∧ connection'.Holds (u.drop n) ∧
      n ≤ len ∧ n ≤ u.length ∧ (0 < len → u ≠ [] → 0 < n) := by
  obtain ⟨hopen, rfl⟩ := h
  have hread := read_open hopen len
  have hmin : min len (connection.sizes 0 + 1) ≤ len := Nat.min_le_left _ _
  rcases Nat.le_total (min len (connection.sizes 0 + 1)) connection.pending.length with hle | hle
  · refine ⟨_, _, hread, ⟨hopen, rfl⟩, hmin, hle, fun hlen _ => ?_⟩
    omega
  · -- the read asks for more than there is
    rw [List.take_of_length_le hle, List.drop_of_length_le hle] at hread
    refine ⟨connection.pending.length, { connection with
      pending := []
      sizes := fun i => connection.sizes (i + 1) }, ?_, ⟨hopen, List.drop_length.symm⟩,
      hle.trans hmin, le_rfl, fun _ hne => List.length_pos_iff.mpr hne⟩
    rw [hread, List.take_length]

theorem readsOctets : ReadsOctets Holds fun connection => connection.Holds [] where
  read_one := by
    intro connection b u hs
    obtain ⟨n, connection', hread, hs', hone, -, hpos⟩ := read_eq hs 1
    have hpos := hpos Nat.one_pos (List.cons_ne_nil b u)
    obtain rfl : n = 1 := by omega
    exact ⟨connection', congrArg Except.ok hread, hs'⟩
  read_end := by
    intro connection hs
    obtain ⟨n, connection', hread, hs', -, hzero, -⟩ := read_eq hs 1
    obtain rfl : n = 0 := Nat.le_zero.mp hzero
    exact ⟨connection', congrArg Except.ok hread, hs'⟩

theorem left_le (h : connection.Holds u) : u.length ≤ InputStream.left connection := by
  obtain ⟨-, rfl⟩ := h
  exact Nat.le_refl _

end Connection

namespace HttpClient

variable {connection connection' : Connection} {sink sink' : Sink} {u : Bytes}

/-- A body that was read was there, and it was handed on in order; induction on the passes. -/
theorem readBodyLoop_true {fuel expect real : ℕ}
    (hok : readBodyLoop fuel connection sink expect real = .ok (true, sink', connection'))
    (hs : connection.Holds u) :
    expect - real ≤ u.length ∧ connection'.Holds (u.drop (expect - real)) ∧
      sink'.octets = sink.octets ++ u.take (expect - real) := by
  induction fuel generalizing connection sink u real with
  | zero => cases hok
  | succ fuel ih =>
    rw [readBodyLoop] at hok
    split_ifs at hok with hdone
    · cases hok
      rw [Nat.sub_eq_zero_of_le hdone, List.drop_zero, List.take_zero, List.append_nil]
      exact ⟨Nat.zero_le _, hs, rfl⟩
    · obtain ⟨n, next, hread, hnext, hneed, hn, -⟩ := Connection.read_eq hs
        (min (expect - real) mtuValue)
      have hlen : (u.take n).length = n := List.length_take_of_le hn
      dsimp only at hok
      rw [hread] at hok
      dsimp only at hok
      split_ifs at hok
      · cases hok
      · cases hok
      · rw [hlen] at hok
        obtain ⟨hrest, hend, hoctets⟩ := ih hok hnext
        have hsplit : expect - real = n + (expect - (real + n)) := by omega
        rw [List.length_drop] at hrest
        refine ⟨by omega, ?_, ?_⟩
        · rw [hsplit, ← List.drop_drop]
          exact hend
        · rw [hoctets, Sink.octets_write, hsplit, List.take_add, List.append_assoc]

theorem readBodyLoop_takes {fuel expect real : ℕ} (hsink : sink.Willing) (hs : connection.Holds u)
    (hu : expect - real ≤ u.length) (hfuel : expect - real < fuel) :
    ∃ sink' connection', readBodyLoop fuel connection sink expect real =
      .ok (true, sink', connection') := by
  induction fuel generalizing connection sink u real with
  | zero => exact absurd hfuel (Nat.not_lt_zero _)
  | succ fuel ih =>
    rw [readBodyLoop]
    split_ifs with hdone
    · exact ⟨sink, connection, rfl⟩
    · have hmtu : 0 < mtuValue := by decide
      obtain ⟨n, next, hread, hnext, hneed, hn, hpos⟩ := Connection.read_eq hs
        (min (expect - real) mtuValue)
      have hlen : (u.take n).length = n := List.length_take_of_le hn
      have hpos := hpos (by omega) (List.ne_nil_of_length_pos (by omega))
      have hwrote : ((u.take n).length : ℤ) = (sink.write (u.take n)).1 := (hsink _ _).symm
      dsimp only
      rw [hread]
      dsimp only
      rw [if_neg (List.ne_nil_of_length_pos (by omega)), if_neg (not_not.mpr hwrote), hlen]
      exact ih hsink hnext (by rw [List.length_drop]; omega) (by omega)

theorem recvFieldsLoop_fits {fuel : ℕ} {lines : List Bytes} {rest : Bytes} {header result : Header}
    {cookies : Option CookieMap} (hs : connection.Holds (sentLines lines ++ 13 :: rest))
    (hlines : ∀ line ∈ lines, PlainLine line)
    (hok : recvFieldsLoop true fuel connection header cookies = .ok (true, result, connection')) :
    ∀ line ∈ lines, line.length ≤ httpMaxSingleLine := by
  induction lines generalizing fuel connection header cookies with
  | nil => exact List.forall_mem_nil _
  | cons line lines ih =>
    obtain ⟨hne, hcr, -⟩ := hlines line List.mem_cons_self
    rw [sentLines_cons_append] at hs
    cases fuel with
    | zero => cases hok
    | succ fuel =>
      rw [recvFieldsLoop] at hok
      by_cases hlen : line.length ≤ httpMaxSingleLine
      · obtain ⟨s₁, hget, hs₁⟩ := getLine_eq Connection.readsOctets hs hcr hlen
        rw [hget, ok_bind] at hok
        simp only [Bool.not_true, Bool.false_eq_true, if_false, List.isEmpty_iff, hne] at hok
        obtain ⟨field, hfield, hok⟩ := bind_eq_ok.mp hok
        cases field with
        | none => cases hok
        | some field =>
          obtain ⟨stored, hstored, hok⟩ := bind_eq_ok.mp hok
          exact List.forall_mem_cons.mpr
            ⟨hlen, ih hs₁ (fun l hl => hlines l (List.mem_cons_of_mem _ hl)) hok⟩
      · obtain ⟨builder, s₁, hget⟩ :=
          getLine_long Connection.readsOctets hs hcr (Nat.lt_of_not_le hlen)
        rw [hget, ok_bind] at hok
        cases hok

theorem recvResponse_closed (h : connection.closed = true) (response : ResponseHeader) :
    recvResponse connection response = .ok (false, response, connection) := by
  have hread : InputStream.read connection 1 = .ok ([], connection) := by
    change Except.ok (connection.read 1) = _
    rw [Connection.read, if_pos h]
  have hget : getLine connection [] = .ok (false, [], connection) := by
    rw [getLine, httpMaxSingleLine, getLineLoop, hread]
    rfl
  rw [recvResponse, hget]
  rfl

/-- A response that is received is read up to the end of its header. -/
theorem recvResponse_true {first : Bytes} {fields : List Bytes} {rest : Bytes} {header : Header}
    {response response' : ResponseHeader}
    (hpending : connection.pending = sentLines (first :: fields) ++ [13, 10] ++ rest)
    (hfirst : (13 : UInt8) ∉ first) (hfields : ∀ line ∈ fields, PlainLine line)
    (hkeep : keepLines response.header (some .empty) fields = .ok (some header))
    (hok : recvResponse connection response = .ok (true, response', connection')) :
    response'.header = header ∧ connection'.Holds rest := by
  have hs : connection.Holds (sentLines (first :: fields) ++ 13 :: (10 :: rest)) := by
    refine ⟨?_, by rw [hpending]; simp⟩
    by_contra hclosed
    rw [recvResponse_closed (Bool.eq_true_of_not_eq_false hclosed)] at hok
    cases hok
  have hs' := hs
  rw [sentLines_cons_append] at hs'
  have hrecv := hok
  rw [recvResponse] at hok
  by_cases hlen : first.length ≤ httpMaxSingleLine
  · obtain ⟨s₁, hget, hs₁⟩ := getLine_eq Connection.readsOctets hs' hfirst hlen
    rw [hget, ok_bind] at hok
    simp only [Bool.not_true, Bool.false_eq_true, if_false] at hok
    split at hok
    · rename_i version code others hpieces
      obtain ⟨⟨status, received, s₂⟩, hloop, hok⟩ := bind_eq_ok.mp hok
      cases hok
      have hfits := recvFieldsLoop_fits hs₁ hfields hloop
      obtain ⟨s', heq, hend⟩ := recvResponse_eq Connection.readsOctets response hs ⟨hfirst, hlen⟩
        (fun line hline => ⟨hfields line hline, hfits line hline⟩) hpieces hkeep Connection.left_le
      rw [heq] at hrecv
      cases hrecv
      exact ⟨rfl, hend⟩
    · cases hok
  · obtain ⟨builder, s₁, hget⟩ :=
      getLine_long Connection.readsOctets hs' hfirst (Nat.lt_of_not_le hlen)
    rw [hget, ok_bind] at hok
    cases hok

variable {client client' : HttpClient} {sinks sinks' : Sinks}

def expected (type : RequestType) (expect : ℤ) : ℕ := if type = .head then 0 else expect.toNat

theorem readBodyByData_true {expect : ℕ} (hs : client.connection.Holds u)
    (hok : client.readBodyByData sinks expect = .ok (true, client', sinks')) :
    expect ≤ u.length ∧ client'.connection.Holds (u.drop expect) ∧
      sinks'.write_callback = sinks.write_callback ∧
      sinks'.write_data.octets = sinks.write_data.octets ++ u.take expect := by
  obtain ⟨⟨status, sink, connection⟩, hread, hok⟩ := bind_eq_ok.mp hok
  cases hok
  obtain ⟨hlen, hend, hoctets⟩ := readBodyLoop_true hread hs
  exact ⟨hlen, hend, rfl, hoctets⟩

theorem readBodyByCallback_true {callback : Sink} {expect : ℕ} (hs : client.connection.Holds u)
    (hok : client.readBodyByCallback sinks callback expect = .ok (true, client', sinks')) :
    expect ≤ u.length ∧ client'.connection.Holds (u.drop expect) ∧
      (∃ callback', sinks'.write_callback = some callback' ∧
        callback'.octets = callback.octets ++ u.take expect) ∧
      sinks'.write_data = sinks.write_data := by
  obtain ⟨⟨status, sink, connection⟩, hread, hok⟩ := bind_eq_ok.mp hok
  cases hok
  obtain ⟨hlen, hend, hoctets⟩ := readBodyLoop_true hread hs
  exact ⟨hlen, hend, ⟨sink, rfl, hoctets⟩, rfl⟩

theorem recvBody_skipped {expect : ℤ} (sinks : Sinks) (h : ¬ (client.type ≠ .head ∧ expect > 0)) :
    client.recvBody sinks expect = .ok (true, client, sinks) ∧ expected client.type expect = 0 := by
  refine ⟨by rw [recvBody, if_neg h]; rfl, ?_⟩
  rw [expected]
  split_ifs with hhead
  · rfl
  · exact Int.toNat_of_nonpos (not_lt.mp fun hpos => h ⟨hhead, hpos⟩)

theorem recvBody_takes {expect : ℤ} (hs : client.connection.Holds u)
    (hdata : sinks.write_data.Willing) (hcallback : ∀ callback ∈ sinks.write_callback, callback.Willing)
    (hu : (if sinks.write_callback.isSome then 2 else 1) * expected client.type expect ≤ u.length) :
    ∃ client' sinks', client.recvBody sinks expect = .ok (true, client', sinks') := by
  by_cases hbody : client.type ≠ .head ∧ expect > 0
  · rw [expected, if_neg hbody.1] at hu
    rw [recvBody, if_pos hbody]
    cases hsome : sinks.write_callback with
    | none =>
      rw [hsome] at hu
      obtain ⟨sink', connection', hread⟩ := readBodyLoop_takes hdata hs
        (by simpa using hu : expect.toNat - 0 ≤ u.length) (Nat.lt_succ_self _)
      exact ⟨_, _, bind_eq_ok.mpr ⟨_, hread, rfl⟩⟩
    | some callback =>
      rw [hsome, Option.isSome_some, if_pos rfl] at hu
      obtain ⟨callback', between, hread⟩ := readBodyLoop_takes (hcallback callback hsome) hs
        (by omega : expect.toNat - 0 ≤ u.length) (Nat.lt_succ_self _)
      obtain ⟨-, hs', -⟩ := readBodyLoop_true hread hs
      obtain ⟨sink', connection', hread'⟩ := readBodyLoop_takes hdata hs'
        (by rw [List.length_drop]; omega : expect.toNat - 0 ≤ _) (Nat.lt_succ_self _)
      exact ⟨_, _, bind_eq_ok.mpr ⟨_, bind_eq_ok.mpr ⟨_, hread, rfl⟩,
        bind_eq_ok.mpr ⟨_, hread', rfl⟩⟩⟩
  · exact ⟨client, sinks, (recvBody_skipped sinks hbody).1⟩

theorem recvBody_none {expect : ℤ} (hnone : sinks.write_callback = none)
    (hs : client.connection.Holds u)
    (hok : client.recvBody sinks expect = .ok (true, client', sinks')) :
    expected client.type expect ≤ u.length ∧
      client'.connection.Holds (u.drop (expected client.type expect)) ∧
      sinks'.write_callback = none ∧
      sinks'.write_data.octets = sinks.write_data.octets ++ u.take (expected client.type expect) := by
  by_cases hbody : client.type ≠ .head ∧ expect > 0
  · rw [recvBody, if_pos hbody, hnone] at hok
    have hread := readBodyByData_true hs hok
    rw [hnone] at hread
    rwa [expected, if_neg hbody.1]
  · obtain ⟨hskip, hzero⟩ := recvBody_skipped sinks hbody
    rw [hskip] at hok
    cases hok
    rw [hzero, List.drop_zero, List.take_zero, List.append_nil]
    exact ⟨Nat.zero_le _, hs, hnone, rfl⟩

/-- With a callback the octets behind the body are read too, for the stream. -/
theorem recvBody_some {expect : ℤ} {callback : Sink} (hsome : sinks.write_callback = some callback)
    (hs : client.connection.Holds u)
    (hok : client.recvBody sinks expect = .ok (true, client', sinks')) :
    2 * expected client.type expect ≤ u.length ∧
      client'.connection.Holds (u.drop (2 * expected client.type expect)) ∧
      (∃ callback', sinks'.write_callback = some callback' ∧
        callback'.octets = callback.octets ++ u.take (expected client.type expect)) ∧
      sinks'.write_data.octets = sinks.write_data.octets ++
        (u.drop (expected client.type expect)).take (expected client.type expect) := by
  by_cases hbody : client.type ≠ .head ∧ expect > 0
  · rw [recvBody, if_pos hbody, hsome] at hok
    obtain ⟨⟨status, between, sinks₁⟩, hcallback, hok⟩ := bind_eq_ok.mp hok
    cases status with
    | false => cases hok
    | true =>
      obtain ⟨hlen, hs₁, ⟨callback', hgiven, hoctets⟩, hsame⟩ := readBodyByCallback_true hs hcallback
      obtain ⟨hlen', hend, hkept, hdata⟩ := readBodyByData_true hs₁ hok
      rw [List.length_drop] at hlen'
      rw [List.drop_drop, ← Nat.two_mul] at hend
      rw [hsame] at hdata
      rw [expected, if_neg hbody.1]
      exact ⟨by omega, hend, ⟨callback', hkept.trans hgiven, hoctets⟩, hdata⟩
  · obtain ⟨hskip, hzero⟩ := recvBody_skipped sinks hbody
    rw [hskip] at hok
    cases hok
    rw [hzero, Nat.mul_zero, List.drop_zero, List.take_zero, List.append_nil, List.append_nil]
    exact ⟨Nat.zero_le _, hs, ⟨callback, hsome, rfl⟩, rfl⟩

theorem finish_pending (client : HttpClient) :
    client.finish.connection.pending = client.connection.pending := by
  rw [finish]
  dsimp only
  split_ifs
  · rfl
  · rfl

theorem finish_response (client : HttpClient) : client.finish.response = client.response := by
  rw [finish]
  dsimp only
  split_ifs
  · rfl
  · rfl

theorem finish_closed (h : client.connection.closed = false) (hkeep : client.finish.closes = false) :
    client.finish.connection.closed = false := by
  rw [closes, finish_response, ← closes] at hkeep
  rw [finish, hkeep]
  exact h

theorem request_true (hok : client.request sinks = .ok (true, client', sinks')) :
    ∃ response connection received,
      recvResponse client.connection client.response = .ok (true, response, connection) ∧
      recvBody { client with response := response, connection := connection } sinks
        (toInteger (response.header.get (bytes "content-length") (bytes "0"))) =
          .ok (true, received, sinks') ∧
      client' = received.finish := by
  obtain ⟨⟨status, response, connection⟩, hrecv, hok⟩ := bind_eq_ok.mp hok
  cases status with
  | false => cases hok
  | true =>
    obtain ⟨⟨status, received, sinks₁⟩, hbody, hok⟩ := bind_eq_ok.mp hok
    cases status with
    | false => cases hok
    | true =>
      cases hok
      exact ⟨response, connection, received, hrecv, hbody, rfl⟩

/-- One response was consumed: `length` octets behind its header were read, and they were given
to the chosen sink and to no other. -/
structure TakesOne (length : ℕ) (rest : Bytes) (sinks sinks' : Sinks) (client' : HttpClient) :
    Prop where
  enough : length ≤ rest.length
  unread : client'.connection.pending = rest.drop length
  delivered : sinks'.chosen.octets = sinks.chosen.octets ++ rest.take length
  once : sinks.write_callback ≠ none → sinks'.write_data.octets = sinks.write_data.octets
  kept : client'.closes = false → client'.connection.closed = false

/-- Read once, the body has to have the length that was read. -/
theorem takesOne_none_iff {length n : ℕ} {rest : Bytes} (hnone : sinks.write_callback = none)
    (hnone' : sinks'.write_callback = none) (hn : n ≤ rest.length)
    (hend : client'.connection.pending = rest.drop n)
    (hdata : sinks'.write_data.octets = sinks.write_data.octets ++ rest.take n)
    (hkept : client'.closes = false → client'.connection.closed = false) :
    TakesOne length rest sinks sinks' client' ↔ n = length := by
  constructor
  · rintro ⟨henough, hunread, -, -, -⟩
    rw [hend] at hunread
    have hlen := congrArg List.length hunread
    rw [List.length_drop, List.length_drop] at hlen
    omega
  · rintro rfl
    refine ⟨hn, hend, ?_, fun hsome => absurd hnone hsome, hkept⟩
    rw [Sinks.chosen, Sinks.chosen, hnone, hnone']
    exact hdata

/-- Read twice, the body has to be empty. -/
theorem takesOne_some_iff {length n : ℕ} {rest : Bytes} {callback callback' : Sink}
    (hsome : sinks.write_callback = some callback)
    (hsome' : sinks'.write_callback = some callback') (hn : 2 * n ≤ rest.length)
    (hend : client'.connection.pending = rest.drop (2 * n))
    (hgiven : callback'.octets = callback.octets ++ rest.take n)
    (hdata : sinks'.write_data.octets = sinks.write_data.octets ++ (rest.drop n).take n)
    (hkept : client'.closes = false → client'.connection.closed = false)
    (hzero : n = 0 ↔ length = 0) : TakesOne length rest sinks sinks' client' ↔ length = 0 := by
  rw [← hzero]
  constructor
  · rintro ⟨-, -, -, honce, -⟩
    have hlen := congrArg List.length (honce (by rw [hsome]; exact Option.some_ne_none _))
    rw [hdata, List.length_append, List.length_take_of_le (by rw [List.length_drop]; omega)] at hlen
    omega
  · intro hn0
    have hlength := hzero.mp hn0
    subst hn0 hlength
    refine ⟨Nat.zero_le _, hend, ?_, fun _ => by rw [hdata, List.take_zero, List.append_nil], hkept⟩
    rw [Sinks.chosen, Sinks.chosen, hsome, hsome']
    exact hgiven

def bodyLength (type : RequestType) (digits : Bytes) : ℕ :=
  if type = .head then 0 else digitsValue digits

/-- A request that succeeds consumes one response, unless there is a body and a callback for it:
the octets behind such a body are consumed as well. -/
theorem request_takesOne_iff {first : Bytes} {fields : List Bytes} {rest digits : Bytes}
    {header : Header}
    (hpending : client.connection.pending = sentLines (first :: fields) ++ [13, 10] ++ rest)
    (hfirst : (13 : UInt8) ∉ first) (hfields : ∀ line ∈ fields, PlainLine line)
    (hkeep : keepLines client.response.header (some .empty) fields = .ok (some header))
    (hlength : header.headers.find? (bytes "content-length") = some digits)
    (hdigits : digits ≠ [] ∧ ∀ b ∈ digits, isdigit b)
    (hok : client.request sinks = .ok (true, client', sinks')) :
    TakesOne (bodyLength client.type digits) rest sinks sinks' client' ↔
      client.type = .head ∨ digitsValue digits = 0 ∨
        sinks.write_callback = none ∧ digitsValue digits < 2 ^ 63 := by
  obtain ⟨response, connection, received, hrecv, hbody, rfl⟩ := request_true hok
  obtain ⟨rfl, hs⟩ := recvResponse_true hpending hfirst hfields hkeep hrecv
  have hget : response.header.get (bytes "content-length") (bytes "0") = digits := by
    rw [Header.get, hlength, Option.getD_some]
  rw [hget, toInteger_of_digits hdigits.1 hdigits.2] at hbody
  have hexpected : expected client.type (min (digitsValue digits : ℤ) (2 ^ 63 - 1)) =
      min (bodyLength client.type digits) (2 ^ 63 - 1) := by
    rw [expected, bodyLength]
    split_ifs <;> omega
  have hbodyLength : bodyLength client.type digits = 0 ↔
      client.type = .head ∨ digitsValue digits = 0 := by
    rw [bodyLength]
    split_ifs with hhead
    · exact iff_of_true rfl (.inl hhead)
    · exact ⟨.inr, fun h => h.resolve_left hhead⟩
  cases hcallback : sinks.write_callback with
  | none =>
    obtain ⟨hlen, ⟨hopen, hend⟩, hnone, hdata⟩ := recvBody_none hcallback hs hbody
    rw [hexpected] at hlen hend hdata
    rw [takesOne_none_iff hcallback hnone hlen ((finish_pending received).trans hend) hdata
      (finish_closed hopen), ← or_assoc, ← hbodyLength, bodyLength, and_iff_right rfl]
    split_ifs
    · omega
    · omega
  | some callback =>
    obtain ⟨hlen, ⟨hopen, hend⟩, ⟨callback', hsome, hgiven⟩, hdata⟩ :=
      recvBody_some hcallback hs hbody
    rw [hexpected] at hlen hend hgiven hdata
    rw [takesOne_some_iff hcallback hsome hlen ((finish_pending received).trans hend) hgiven hdata
      (finish_closed hopen) (by omega), ← or_assoc, ← hbodyLength]
    exact ⟨.inl, fun h => h.resolve_right fun hnone => Option.some_ne_none _ hnone.1⟩

/-- A response whose octets are all there is received. -/
theorem request_succeeds {first : Bytes} {fields : List Bytes} {rest version code : Bytes}
    {others : List Bytes} {header : Header} (hopen : client.connection.closed = false)
    (hpending : client.connection.pending = sentLines (first :: fields) ++ [13, 10] ++ rest)
    (hfirst : (13 : UInt8) ∉ first ∧ first.length ≤ httpMaxSingleLine)
    (hfields : ∀ line ∈ fields, PlainLine line ∧ line.length ≤ httpMaxSingleLine)
    (hpieces : pieces first (bytes " ") = version :: code :: others)
    (hkeep : keepLines client.response.header (some .empty) fields = .ok (some header))
    (hdata : sinks.write_data.Willing) (hcallback : ∀ callback ∈ sinks.write_callback, callback.Willing)
    (hrest : (if sinks.write_callback.isSome then 2 else 1) * expected client.type
      (toInteger (header.get (bytes "content-length") (bytes "0"))) ≤ rest.length) :
    ∃ client' sinks', client.request sinks = .ok (true, client', sinks') := by
  have hs : client.connection.Holds (sentLines (first :: fields) ++ 13 :: (10 :: rest)) :=
    ⟨hopen, by rw [hpending]; simp⟩
  obtain ⟨connection, hrecv, hend⟩ := recvResponse_eq Connection.readsOctets client.response hs
    hfirst hfields hpieces hkeep Connection.left_le
  have hclient : (HttpClient.connection { client with
      response := { client.response.setFirstLine version code with header := header }
      connection := connection }).Holds rest := hend
  obtain ⟨received, sinks', hbody⟩ := recvBody_takes hclient hdata hcallback hrest
  exact ⟨_, _, bind_eq_ok.mpr ⟨_, hrecv, bind_eq_ok.mpr ⟨_, hbody, rfl⟩⟩⟩

/-- The lines behind the first one of a response with a body of one octet. -/
def oneOctet : List Bytes := [bytes "content-length: 1", bytes "connection: keep-alive"]

/-- A client that waits for such a response, with the octet `H` behind it. -/
def waiting : HttpClient where
  connection := { pending := sentLines (bytes "HTTP/1.1 200 OK" :: oneOctet) ++ [13, 10] ++ bytes "aH" }

/-- The octet behind the body is read too. -/
theorem request_reads_twice :
    (∃ client' sinks', waiting.request { write_callback := some {} } = .ok (true, client', sinks')) ∧
      ∀ client' sinks', waiting.request { write_callback := some {} } = .ok (true, client', sinks') →
        ¬ TakesOne 1 (bytes "aH") { write_callback := some {} } sinks' client' := by
  have hrun : (waiting.request { write_callback := some {} }).map
      (fun r => (r.1, r.2.1.connection.pending)) = .ok (true, []) := by
    decide +kernel
  constructor
  · cases h : waiting.request { write_callback := some {} } with
    | error e =>
      rw [h] at hrun
      cases hrun
    | ok r =>
      obtain ⟨status, client', sinks'⟩ := r
      rw [h] at hrun
      obtain ⟨rfl, -⟩ := Prod.mk.inj (Except.ok.inj hrun)
      exact ⟨client', sinks', rfl⟩
  · intro client' sinks' h htakes
    rw [h] at hrun
    have hpending := (Prod.mk.inj (Except.ok.inj hrun)).2
    have hunread := htakes.unread
    rw [hpending] at hunread
    exact absurd hunread (by decide)

/-- Without a callback the octet stays unread. -/
theorem request_takesOne_waiting : ∃ client' sinks',
    waiting.request {} = .ok (true, client', sinks') ∧
      (TakesOne (bodyLength .get (bytes "1")) (bytes "aH") {} sinks' client' ↔
        RequestType.get = .head ∨ digitsValue (bytes "1") = 0 ∨
          (none : Option Sink) = none ∧ digitsValue (bytes "1") < 2 ^ 63) := by
  have hkeep : keepLines {} (some .empty) oneOctet = .ok (some
      { headers := (OrdMap.empty.insert (bytes "content-length") (bytes "1")).insert
          (bytes "connection") (bytes "keep-alive")
        cookies := some .empty }) := by
    decide +kernel
  have hlines : ∀ line ∈ oneOctet, PlainLine line ∧ line.length ≤ httpMaxSingleLine := by
    unfold PlainLine
    decide
  have hpieces : pieces (bytes "HTTP/1.1 200 OK") (bytes " ") =
      [bytes "HTTP/1.1", bytes "200", bytes "OK"] := by
    decide
  obtain ⟨client', sinks', hok⟩ : ∃ client' sinks', waiting.request {} = .ok (true, client', sinks') :=
    request_succeeds rfl rfl (by decide) hlines hpieces hkeep (fun _ _ => rfl) (by simp)
      (by decide +kernel)
  exact ⟨client', sinks', hok, request_takesOne_iff rfl (by decide)
    (fun line hline => (hlines line hline).1) hkeep (by decide) (by decide) hok⟩

end HttpClient

end Sese.Net.Http
