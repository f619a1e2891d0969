import Mathlib.Logic.Function.Basic
import Sese.Net.Addresses
import Sese.Net.Dns.Capacity

/-!
# The DNS service

One round of `DnsService::handle`. The callback, if there is one, sees the query and may
fill in the package to send; otherwise the questions are answered from the own records and
then by the upstream name servers. The response is encoded into the buffer of the service, with the
length of the query as its capacity if the callback made it.
-/
namespace Sese

open Foundation Net

namespace DnsPackage

structure Flags where
  qr : Bool
  opcode : UInt8
  aa : Bool
  tc : Bool
  rd : Bool
  ra : Bool
  z : UInt8
  rcode : UInt8

/-- `DnsPackage::Flags()`. -/
def Flags.new : Flags where
  qr := false
  opcode := 0
  aa := false
  tc := false
  rd := false
  ra := false
  z := 0
  rcode := 0

def Flags.encode (flags : Flags) : UInt16 :=
  flags.qr.toUInt16 <<< 15 ||| (flags.opcode &&& 0xF).toUInt16 <<< 11 |||
    flags.aa.toUInt16 <<< 10 ||| flags.tc.toUInt16 <<< 9 ||| flags.rd.toUInt16 <<< 8 |||
    flags.ra.toUInt16 <<< 7 ||| (flags.z &&& 0x7).toUInt16 <<< 4 ||| (flags.rcode &&& 0xF).toUInt16

end DnsPackage

namespace Service.Dns

structure DnsService where
  /-- 512 octets -/
  buffer : Bytes
  v4map : Bytes → Option IPv4Address
  v6map : Bytes → Option IPv6Address

/-- The callback gets the query and the package to send, and may change both. -/
abbrev Callback := DnsPackage → DnsPackage → Bool × DnsPackage × DnsPackage

/-- What the upstream servers answer when they are asked the `n`-th time. -/
abbrev Resolver := (n : ℕ) → (name : Bytes) → (type : UInt16) → List IPAddress

namespace DnsService

def bufferSize : ℕ := 512

/-- The record with the address `octets` that answers a question. -/
def answerTo (q : DnsPackage.Question) (octets : Bytes) : DnsPackage.Answer where
  name := q.name
  type := q.type
  class_ := q.class_
  ttl := 114514
  data_length := .ofNat octets.length
  data := octets

/-- The own record for a question. -/
def ownRecord (service : DnsService) (q : DnsPackage.Question) : Option Bytes :=
  if q.class_ ≠ DnsPackage.classIn then none
  else if q.type = DnsPackage.typeA then (service.v4map q.name).map (·.octets)
  else if q.type = DnsPackage.typeAAAA then (service.v6map q.name).map (·.octets)
  else none

/-- `handleBySelf`: the questions that are left, and the package to send. -/
def handleBySelf (service : DnsService) :
    List DnsPackage.Question → DnsPackage → List DnsPackage.Question × DnsPackage
  | [], send => ([], send)
  | q :: qs, send =>
    match service.ownRecord q with
    | some octets =>
      handleBySelf service qs { send with
        questions := send.questions ++ [q], answers := send.answers ++ [answerTo q octets] }
    | none =>
      let (rest, send) := handleBySelf service qs send
      (q :: rest, send)

def remember (service : DnsService) (name : Bytes) : IPAddress → DnsService
  | .v4 address => { service with v4map := Function.update service.v4map name (some address) }
  | .v6 address => { service with v6map := Function.update service.v6map name (some address) }

/-- `handleByUpstream`: the package to send, and what is remembered. The questions that are left
are not used any more. -/
def handleByUpstream (resolve : Resolver) :
    ℕ → List DnsPackage.Question → DnsPackage → DnsService → DnsPackage × DnsService
  | _, [], send, service => (send, service)
  | n, q :: qs, send, service =>
    let ips := resolve n q.name q.type
    if ips = [] then handleByUpstream resolve (n + 1) qs send service
    else
      handleByUpstream resolve (n + 1) qs
        { send with questions := send.questions ++ [q],
                    answers := send.answers ++ ips.map fun ip => answerTo q ip.octets }
        (ips.foldl (fun service ip => service.remember q.name ip) service)

/-- The package to send before anyone has filled it in. -/
def emptyResponse (recv : DnsPackage) : DnsPackage where
  id := recv.id
  flags := ({ DnsPackage.Flags.new with qr := true } : DnsPackage.Flags).encode
  questions := []
  answers := []
  authorities := []
  additionals := []

structure Response where
  /-- the callback says that nothing else is to be done -/
  handled : Bool
  send : DnsPackage
  service : DnsService

/-- What is to be sent for a query. -/
def respond (service : DnsService) (callback : Option Callback) (resolve : Resolver)
    (recv : DnsPackage) : Response :=
  let (handled, recv, send) := match callback with
    | none => (false, recv, emptyResponse recv)
    | some callback => callback recv (emptyResponse recv)
  if handled then { handled, send, service }
  else
    let (questions, send) := service.handleBySelf recv.questions send
    let (send, service) := handleByUpstream resolve 0 questions send service
    { handled, send, service }

/-- A datagram that is sent, and what `encode` returned for it. -/
structure Sent where
  encoded : Bool
  datagram : Bytes
  deriving DecidableEq, Repr

/-- `receive_from`: a datagram of at most 512 octets is at the start of the buffer. -/
def receive (service : DnsService) (query : Bytes) : Bytes := overwrite service.buffer 0 query

def octets (buffer : Bytes) : Octets := within (fun i => buffer.getD i 0) buffer.length

/-- The capacity that is passed to `encode`. -/
def capacity (response : Response) (query : Bytes) : ℕ :=
  if response.handled then query.length else bufferSize

/-- Encode and send the response. Only if it was not the callback that made it, `encode` is asked
whether it succeeded. -/
def reply (response : Response) (query buffer : Bytes) : Except Fault (Option Sent × DnsService) := do
  let index := DnsPackage.buildIndex response.send
  let (encoded, length, buffer, _) ←
    DnsPackage.encode response.send buffer (capacity response query) index
  let service := { response.service with buffer }
  if !response.handled && !encoded then .ok (none, service)
  else
    let datagram ← load buffer 0 length
    .ok (some { encoded, datagram }, service)

/-- One round of `handle`: the datagram that is sent, if any. -/
def handle (service : DnsService) (callback : Option Callback) (resolve : Resolver)
    (query : Bytes) : Except Fault (Option Sent × DnsService) := do
  let buffer := service.receive query
  match ← DnsPackage.decode (octets buffer) query.length with
  | none => .ok (none, { service with buffer })
  | some recv => reply (service.respond callback resolve recv) query buffer

open DnsPackage

theorem answerTo_complete {q : Question} {octets : Bytes} (h : octets.length < 65536) :
    (answerTo q octets).data.length = (answerTo q octets).data_length.toNat := by
  rw [answerTo, UInt16.toNat_ofNat']
  exact (Nat.mod_eq_of_lt h).symm

theorem ownRecord_length {service : DnsService} {q : Question} {octets : Bytes}
    (h : service.ownRecord q = some octets) : octets.length < 65536 := by
  rw [ownRecord] at h
  split_ifs at h
  · obtain ⟨address, -, rfl⟩ := Option.map_eq_some_iff.mp h
    rw [address.length_octets]
    decide
  · obtain ⟨address, -, rfl⟩ := Option.map_eq_some_iff.mp h
    rw [address.length_octets]
    decide

theorem complete_append {send : DnsPackage} (h : send.Complete) (qs : List Question)
    {as : List Answer} (has : ∀ a ∈ as, a.data.length = a.data_length.toNat) :
    ({ send with questions := send.questions ++ qs, answers := send.answers ++ as } :
      DnsPackage).Complete where
  answers a ha := (List.mem_append.mp ha).elim (h.answers a) (has a)
  authorities := h.authorities
  additionals := h.additionals

theorem handleBySelf_complete (service : DnsService) (qs : List Question) {send : DnsPackage}
    (h : send.Complete) : (service.handleBySelf qs send).2.Complete := by
  induction qs generalizing send with
  | nil => exact h
  | cons q qs ih =>
    rw [handleBySelf]
    cases hown : service.ownRecord q with
    | none => exact ih h
    | some octets =>
      apply ih
      apply complete_append h
      intro a ha
      rw [List.mem_singleton.mp ha]
      exact answerTo_complete (ownRecord_length hown)

theorem handleByUpstream_complete (resolve : Resolver) (n : ℕ) (qs : List Question)
    {send : DnsPackage} (service : DnsService) (h : send.Complete) :
    (handleByUpstream resolve n qs send service).1.Complete := by
  induction qs generalizing n send service with
  | nil => exact h
  | cons q qs ih =>
    rw [handleByUpstream]
    split_ifs
    · exact ih _ _ h
    · apply ih
      apply complete_append h
      intro a ha
      obtain ⟨ip, -, rfl⟩ := List.mem_map.mp ha
      exact answerTo_complete ip.length_octets_lt

/-- The callback gives every record as much data as it says. -/
def Honest (callback : Option Callback) : Prop :=
  ∀ f ∈ callback, ∀ recv send, send.Complete → (f recv send).2.2.Complete

theorem respond_complete (service : DnsService) {callback : Option Callback} (h : Honest callback)
    (resolve : Resolver) (recv : DnsPackage) :
    (service.respond callback resolve recv).send.Complete := by
  have hempty : (emptyResponse recv).Complete := by
    constructor
    · intro a ha
      cases ha
    · intro a ha
      cases ha
    · intro a ha
      cases ha
  unfold respond
  cases callback with
  | none => exact handleByUpstream_complete _ _ _ _ (handleBySelf_complete _ _ hempty)
  | some f =>
    have hsend := h f rfl recv _ hempty
    by_cases hhandled : (f recv (emptyResponse recv)).1 = true
    · simp only [hhandled, if_true]
      exact hsend
    · simp only [hhandled]
      exact handleByUpstream_complete _ _ _ _ (handleBySelf_complete _ _ hsend)

theorem load_take {W : Bytes} (rest : Bytes) {n : ℕ} (hn : n ≤ W.length) :
    load (W ++ rest) 0 n = .ok (W.take n) := by
  rw [load, if_pos (by rw [List.length_append]; omega), window, List.drop_zero,
    List.take_append_of_le_length hn]

/-- The octets of the package are sent if the buffer of the service has room for them, and
otherwise nothing. -/
def SendsWhole (send : DnsPackage) (outcome : Except Fault (Option Sent × DnsService)) : Prop :=
  ∃ W service, wire send (buildIndex send) = .ok W ∧
    outcome = .ok (if W.length ≤ bufferSize then some ⟨true, W⟩ else none, service)

/-- What the encoder leaves in the buffer is right, and all of it is sent. If the callback made the
response, there is enough room, or exactly one section is left out and is in the buffer already. -/
def Suffices (response : Response) (query buffer : Bytes) : Prop :=
  ∃ bss W, sectionOctets response.send (buildIndex response.send) = .ok bss ∧
    W = response.send.header ++ bss.flatten ∧
    if response.handled then
      response.send.additionals = [] ∧ (W.length ≤ query.length ∨ W.length ≤ bufferSize ∧
        ∃ before s after, bss = before ++ s :: after ∧ EndsAt 12 query.length before s ∧
          window buffer query.length s.length = s)
    else if W.length ≤ bufferSize then response.send.additionals = []
    else ∀ before s after, bss = before ++ s :: after → ¬ EndsAt 12 bufferSize before s

section

variable {response : Response} {query buffer : Bytes} {n : ℕ} {buffer' : Bytes} {index : Index}

theorem reply_of_true (h : encode response.send buffer (capacity response query)
      (buildIndex response.send) = .ok (true, n, buffer', index)) :
    reply response query buffer = load buffer' 0 n >>= fun datagram =>
      .ok (some ⟨true, datagram⟩, { response.service with buffer := buffer' }) := by
  rw [reply, h, ok_bind]
  simp

theorem reply_ne_none (h : encode response.send buffer (capacity response query)
      (buildIndex response.send) = .ok (true, n, buffer', index)) (service : DnsService) :
    reply response query buffer ≠ .ok (none, service) := by
  rw [reply_of_true h]
  intro heq
  obtain ⟨datagram, -, hd⟩ := bind_eq_ok.mp heq
  cases hd

theorem reply_of_false (h : encode response.send buffer (capacity response query)
      (buildIndex response.send) = .ok (false, n, buffer', index)) :
    reply response query buffer = if response.handled then load buffer' 0 n >>= fun datagram =>
      .ok (some ⟨false, datagram⟩, { response.service with buffer := buffer' })
    else .ok (none, { response.service with buffer := buffer' }) := by
  rw [reply, h, ok_bind]
  cases response.handled with
  | true => simp
  | false => simp

variable (hc : response.send.Complete) (hbuffer : buffer.length = bufferSize)
  (hquery : 12 ≤ query.length) (hle : query.length ≤ bufferSize) {bss : List Bytes} {W : Bytes}
  (hbss : sectionOctets response.send (buildIndex response.send) = .ok bss)
  (hW : W = response.send.header ++ bss.flatten) (hsize : W.length < 2 ^ 64)

include hc hbuffer hle hbss hW

/-- With enough capacity the package is sent, but for the section that is not counted. -/
theorem reply_of_room (hroom : W.length ≤ capacity response query) :
    ∃ service, reply response query buffer = .ok (some ⟨true, W.take (countedLength bss)⟩, service) := by
  have hcapacity : capacity response query ≤ bufferSize := by
    rw [capacity]
    split_ifs
    · exact hle
    · exact Nat.le_refl _
  have hlt : bufferSize < 2 ^ 64 := by decide
  obtain ⟨index', h⟩ := encode_room hc hbss hW (Nat.lt_of_le_of_lt hcapacity hlt) hroom
    (hbuffer ▸ hcapacity)
  rw [reply_of_true h, load_take _ (hW ▸ countedLength_le hbss), ok_bind]
  exact ⟨_, rfl⟩

include hquery hsize

/-- If the capacity ends within a section, `encode` says so. -/
theorem reply_of_full (hfull : capacity response query < W.length)
    (hends : ∀ before s after, bss = before ++ s :: after →
      ¬ EndsAt 12 (capacity response query) before s) :
    ∃ n buffer' service, reply response query buffer = if response.handled then
        load buffer' 0 n >>= fun datagram => .ok (some ⟨false, datagram⟩, service)
      else .ok (none, service) := by
  obtain ⟨hmin, hmax⟩ : 12 ≤ capacity response query ∧ capacity response query ≤ bufferSize := by
    rw [capacity]
    split_ifs
    · exact ⟨hquery, hle⟩
    · exact ⟨by decide, Nat.le_refl _⟩
  obtain ⟨n, buffer', index', h⟩ := encode_full hc hbss hW hmin (hbuffer ▸ hmax) (by omega) hfull hends
  exact ⟨n, buffer', _, reply_of_false h⟩

/-- If it ends in front of a section and the package has no room in the buffer, then something
is sent nevertheless, or the buffer overflows. -/
theorem reply_of_skip {before after : List Bytes} {s : Bytes} (heq : bss = before ++ s :: after)
    (hends : EndsAt 12 (capacity response query) before s) (service : DnsService) :
    reply response query buffer ≠ .ok (none, service) := by
  obtain ⟨hmin, hmax⟩ : 12 ≤ capacity response query ∧ capacity response query ≤ bufferSize := by
    rw [capacity]
    split_ifs
    · exact ⟨hquery, hle⟩
    · exact ⟨by decide, Nat.le_refl _⟩
  have hlt : capacity response query < 2 ^ 64 := Nat.lt_of_le_of_lt hmax (by decide)
  rcases encode_skip hc hbss hW hmin (hbuffer ▸ hmax) hlt heq hends hsize with h | ⟨b, i, h⟩
  · rw [reply, h]
    exact nofun
  · exact reply_ne_none h service

/-- If the rest has room in the buffer, a section is left out, and the others are where they belong. -/
theorem reply_of_skip_room (hhandled : response.handled = true) {before after : List Bytes} {s : Bytes}
    (heq : bss = before ++ s :: after) (hends : EndsAt 12 query.length before s)
    (hfits : W.length ≤ bufferSize) :
    ∃ octets service, octets = response.send.header ++ (before.flatten ++
        (window buffer query.length s.length ++ after.flatten)) ∧ octets.length = W.length ∧
      reply response query buffer =
        .ok (some ⟨true, octets.take (countedLength bss)⟩, service) := by
  have hcapacity : capacity response query = query.length := by rw [capacity, if_pos hhandled]
  have hlt : query.length < 2 ^ 64 := Nat.lt_of_le_of_lt hle (by decide)
  obtain ⟨index', h⟩ := encode_skip_room hc hbss hW hquery (hbuffer ▸ hle) hlt heq hends hsize
    (hbuffer ▸ hfits)
  have hlen : (response.send.header ++ (before.flatten ++
      (window buffer query.length s.length ++ after.flatten))).length = W.length := by
    have hpos := List.length_pos_iff.mpr hends.ne_nil
    have hbefore := hends.capacity
    have htotal : W.length = 12 + (before.flatten.length + (s.length + after.flatten.length)) := by
      rw [hW, heq]
      simp only [List.length_append, length_header, List.flatten_append, List.flatten_cons]
    simp only [List.length_append, length_header]
    rw [length_window (by omega), htotal]
  rw [← hcapacity] at h
  have hcounted := countedLength_le hbss
  rw [← hW, ← hlen] at hcounted
  rw [reply_of_true h, hcapacity, load_take _ hcounted]
  exact ⟨_, _, rfl, hlen, rfl⟩

theorem reply_handled_iff (hhandled : response.handled = true) :
    SendsWhole response.send (reply response query buffer) ↔
      response.send.additionals = [] ∧ (W.length ≤ query.length ∨ W.length ≤ bufferSize ∧
        ∃ before s after, bss = before ++ s :: after ∧ EndsAt 12 query.length before s ∧
          window buffer query.length s.length = s) := by
  have hwire : wire response.send (buildIndex response.send) = .ok W := wire_eq_ok.mpr ⟨bss, hbss, hW⟩
  have hcapacity : capacity response query = query.length := by rw [capacity, if_pos hhandled]
  have hsent : ∀ {octets service service'}, .ok (some ⟨true, octets⟩, service) =
      (.ok (some ⟨true, W⟩, service') : Except Fault (Option Sent × DnsService)) → octets = W := by
    intro octets service service' heq
    obtain ⟨hsent, -⟩ := Prod.mk.inj (Except.ok.inj heq)
    exact (Sent.mk.inj (Option.some.inj hsent)).2
  constructor
  · rintro ⟨W', service, hwire', heq⟩
    obtain rfl := Except.ok.inj (hwire.symm.trans hwire')
    by_cases hroom : W.length ≤ query.length
    · obtain ⟨service', hreply⟩ := reply_of_room hc hbuffer hle hbss hW (hcapacity ▸ hroom)
      rw [hreply, if_pos (hroom.trans hle)] at heq
      exact ⟨((take_counted_iff hbss hW rfl).mp (hsent heq)).1, .inl hroom⟩
    by_cases hends : ∃ before s after, bss = before ++ s :: after ∧ EndsAt 12 query.length before s
    · obtain ⟨before, s, after, hbss', hends⟩ := hends
      by_cases hfits : W.length ≤ bufferSize
      · obtain ⟨octets, service', hoctets, hlen, hreply⟩ :=
          reply_of_skip_room hc hbuffer hquery hle hbss hW hsize hhandled hbss' hends hfits
        rw [hreply, if_pos hfits] at heq
        obtain ⟨hnone, hsame⟩ := (take_counted_iff hbss hW hlen).mp (hsent heq)
        rw [hoctets, hW, hbss', List.flatten_append, List.flatten_cons] at hsame
        have hrest := List.append_cancel_left (List.append_cancel_left hsame)
        exact ⟨hnone, .inr ⟨hfits, before, s, after, hbss', hends, List.append_cancel_right hrest⟩⟩
      · rw [if_neg hfits] at heq
        exact absurd heq
          (reply_of_skip hc hbuffer hquery hle hbss hW hsize hbss' (hcapacity ▸ hends) _)
    · obtain ⟨n, buffer', service', hreply⟩ := reply_of_full hc hbuffer hquery hle hbss hW hsize
        (by rw [hcapacity]; omega) (fun before s after hbss' h =>
          hends ⟨before, s, after, hbss', hcapacity ▸ h⟩)
      rw [hreply, if_pos hhandled] at heq
      obtain ⟨datagram, -, hd⟩ := bind_eq_ok.mp heq
      split_ifs at hd
      · cases hd
      · cases hd
  · rintro ⟨hnone, hroom | ⟨hfits, before, s, after, hbss', hends, hstale⟩⟩
    · obtain ⟨service, hreply⟩ := reply_of_room hc hbuffer hle hbss hW (hcapacity ▸ hroom)
      rw [(take_counted_iff hbss hW rfl).mpr ⟨hnone, rfl⟩] at hreply
      exact ⟨W, service, hwire, by rw [hreply, if_pos (hroom.trans hle)]⟩
    · obtain ⟨octets, service, hoctets, hlen, hreply⟩ :=
        reply_of_skip_room hc hbuffer hquery hle hbss hW hsize hhandled hbss' hends hfits
      have hsame : octets = W := by
        rw [hoctets, hstale, hW, hbss', List.flatten_append, List.flatten_cons]
      rw [(take_counted_iff hbss hW hlen).mpr ⟨hnone, hsame⟩] at hreply
      exact ⟨W, service, hwire, by rw [hreply, if_pos hfits]⟩

theorem reply_own_iff (hown : ¬ response.handled = true) :
    SendsWhole response.send (reply response query buffer) ↔
      if W.length ≤ bufferSize then response.send.additionals = []
      else ∀ before s after, bss = before ++ s :: after → ¬ EndsAt 12 bufferSize before s := by
  have hwire : wire response.send (buildIndex response.send) = .ok W := wire_eq_ok.mpr ⟨bss, hbss, hW⟩
  have hcapacity : capacity response query = bufferSize := by rw [capacity, if_neg hown]
  split_ifs with hfits
  · obtain ⟨service, hreply⟩ := reply_of_room hc hbuffer hle hbss hW (hcapacity ▸ hfits)
    rw [hreply]
    constructor
    · rintro ⟨W', service', hwire', heq⟩
      obtain rfl := Except.ok.inj (hwire.symm.trans hwire')
      rw [if_pos hfits] at heq
      obtain ⟨hsent, -⟩ := Prod.mk.inj (Except.ok.inj heq)
      exact ((take_counted_iff hbss hW rfl).mp (Sent.mk.inj (Option.some.inj hsent)).2).1
    · intro hnone
      rw [(take_counted_iff hbss hW rfl).mpr ⟨hnone, rfl⟩]
      exact ⟨W, service, hwire, by rw [if_pos hfits]⟩
  · constructor
    · rintro ⟨W', service, hwire', heq⟩ before s after hbss' hends
      obtain rfl := Except.ok.inj (hwire.symm.trans hwire')
      rw [if_neg hfits] at heq
      exact reply_of_skip hc hbuffer hquery hle hbss hW hsize hbss' (hcapacity ▸ hends) _ heq
    · intro hnone
      obtain ⟨n, buffer', service', hreply⟩ := reply_of_full hc hbuffer hquery hle hbss hW hsize
        (by rw [hcapacity]; omega) (by rwa [hcapacity])
      exact ⟨W, service', hwire, by rw [hreply, if_neg hown, if_neg hfits]⟩

end

/-- Which answers the service sends whole. -/
theorem handle_sendsWhole_iff {service : DnsService} {callback : Option Callback}
    (resolve : Resolver) {query : Bytes} {recv : DnsPackage}
    (hbuffer : service.buffer.length = bufferSize) (hcallback : Honest callback)
    (hquery : query.length ≤ bufferSize)
    (hrecv : decode (octets (service.receive query)) query.length = .ok (some recv))
    (hsize : ∀ W, wire (service.respond callback resolve recv).send
      (buildIndex (service.respond callback resolve recv).send) = .ok W → W.length < 2 ^ 64) :
    SendsWhole (service.respond callback resolve recv).send (service.handle callback resolve query) ↔
      Suffices (service.respond callback resolve recv) query (service.receive query) := by
  have hreceive : (service.receive query).length = bufferSize := by
    rw [receive, length_overwrite (by omega), hbuffer]
  have hmin : 12 ≤ query.length := by
    by_contra hlt
    rw [decode, if_pos (not_le.mp hlt)] at hrecv
    cases hrecv
  have hhandle : service.handle callback resolve query =
      reply (service.respond callback resolve recv) query (service.receive query) := by
    rw [handle, hrecv, ok_bind]
  have hc := respond_complete service hcallback resolve recv
  rw [hhandle]
  generalize service.respond callback resolve recv = response at hc hsize
  cases hwire : wire response.send (buildIndex response.send) with
  | error x =>
    constructor
    · rintro ⟨W, -, hW, -⟩
      rw [hwire] at hW
      cases hW
    · rintro ⟨bss, W, hbss, hW, -⟩
      rw [wire_eq_ok.mpr ⟨bss, hbss, hW⟩] at hwire
      cases hwire
  | ok W =>
    obtain ⟨bss, hbss, hW⟩ := wire_eq_ok.mp hwire
    have hsuffices : Suffices response query (service.receive query) ↔
        if response.handled then
          response.send.additionals = [] ∧ (W.length ≤ query.length ∨ W.length ≤ bufferSize ∧
            ∃ before s after, bss = before ++ s :: after ∧ EndsAt 12 query.length before s ∧
              window (service.receive query) query.length s.length = s)
        else if W.length ≤ bufferSize then response.send.additionals = []
        else ∀ before s after, bss = before ++ s :: after → ¬ EndsAt 12 bufferSize before s := by
      constructor
      · rintro ⟨bss', W', hbss', hW', h⟩
        obtain rfl := Except.ok.inj (hbss.symm.trans hbss')
        rwa [hW, ← hW']
      · intro h
        exact ⟨bss, W, hbss, hW, h⟩
    rw [hsuffices]
    by_cases hhandled : response.handled = true
    · rw [if_pos hhandled]
      exact reply_handled_iff hc hreceive hmin hquery hbss hW (hsize W hwire) hhandled
    · rw [if_neg hhandled]
      exact reply_own_iff hc hreceive hmin hquery hbss hW (hsize W hwire) hhandled

def freshService : DnsService where
  buffer := List.replicate bufferSize 0
  v4map _ := none
  v6map _ := none

/-- `a` is asked for. -/
def queryA : Bytes := [0, 1, 0, 0, 0, 1, 0, 0, 0, 0, 0, 0, 1, 97, 0, 0, 1, 0, 1]

def packageA : DnsPackage where
  id := 1
  flags := 0
  questions := [{ name := [97], type := 1, class_ := 1 }]
  answers := []
  authorities := []
  additionals := []

/-- The address of `a`. -/
def addressA : Answer where
  name := [97]
  type := 1
  class_ := 1
  ttl := 60
  data_length := 4
  data := [10, 0, 0, 1]

/-- A callback that repeats the questions, and gives the answers `answers`. -/
def answering (answers : List Answer) : Callback := fun recv send =>
  (true, recv, { send with questions := recv.questions, answers })

theorem honest_answering {answers : List Answer}
    (h : ∀ a ∈ answers, a.data.length = a.data_length.toNat) :
    Honest (some (answering answers)) := by
  intro f hf recv send hsend
  obtain rfl := Option.some.inj hf
  exact ⟨h, hsend.authorities, hsend.additionals⟩

theorem decode_queryA :
    decode (octets (freshService.receive queryA)) queryA.length = .ok (some packageA) := by
  decide +kernel

/-- A response that is no longer than the query is sent. -/
theorem handle_sendsWhole_queryA :
    SendsWhole (freshService.respond (some (answering [])) (fun _ _ _ => []) packageA).send
      (freshService.handle (some (answering [])) (fun _ _ _ => []) queryA) := by
  have hwire : wire (freshService.respond (some (answering [])) (fun _ _ _ => []) packageA).send
      (buildIndex (freshService.respond (some (answering [])) (fun _ _ _ => []) packageA).send) =
      .ok [0, 1, 128, 0, 0, 1, 0, 0, 0, 0, 0, 0, 1, 97, 0, 0, 1, 0, 1] := rfl
  rw [handle_sendsWhole_iff (fun _ _ _ => []) (List.length_replicate) (honest_answering (List.forall_mem_nil _))
    (by decide) decode_queryA]
  · exact ⟨[[1, 97, 0, 0, 1, 0, 1], [], [], []], _, rfl, rfl, rfl, .inl (Nat.le_refl 19)⟩
  · intro W hW
    rw [← Except.ok.inj (hwire.symm.trans hW)]
    decide

/-- The query ends where the answers would start, and they are not written. -/
theorem answer_not_sent :
    ¬ ∀ (service : DnsService) (callback : Option Callback) (resolve : Resolver) (query : Bytes)
      (recv : DnsPackage), service.buffer.length = bufferSize → Honest callback →
      query.length ≤ bufferSize →
      decode (octets (service.receive query)) query.length = .ok (some recv) →
      SendsWhole (service.respond callback resolve recv).send
        (service.handle callback resolve query) := by
  intro h
  have hhonest : Honest (some (answering [addressA])) := by
    apply honest_answering
    intro a ha
    rw [List.mem_singleton.mp ha]
    rfl
  obtain ⟨W, service', hW, hsent⟩ := h freshService _ (fun _ _ _ => []) queryA packageA
    List.length_replicate hhonest (by decide) decode_queryA
  have hwire : W = [0, 1, 128, 0, 0, 1, 0, 1, 0, 0, 0, 0, 1, 97, 0, 0, 1, 0, 1,
      192, 12, 0, 1, 0, 1, 0, 0, 0, 60, 0, 4, 10, 0, 0, 1] := (Except.ok.inj hW).symm
  have hdatagram : (freshService.handle (some (answering [addressA])) (fun _ _ _ => []) queryA).map
      Prod.fst = .ok (some ⟨true, [0, 1, 128, 0, 0, 1, 0, 1, 0, 0, 0, 0, 1, 97, 0, 0, 1, 0, 1,
        192, 12, 0, 1, 0, 1, 0, 0, 0, 60, 0, 4, 10, 0, 0, 1]⟩) := by
    rw [hsent, hwire]
    rfl
  revert hdatagram
  decide +kernel

end DnsService

end Service.Dns

end Sese
