import Sese.Service.Http.Actions

/-!
# Steps and runs of a connection

`Outcome` is the inversion of `step`, and `run_invariant` the rule for properties
of all states that a run reaches. A condition on the frames that arrive is made a
condition on steps by `onFrame`.

`AllHeld Q` says that `Q` holds of every stream object of a connection, of those in
the map and of those that a handler may still hold.
-/
namespace Sese.Service.Http

open Foundation Sese.Net.Http

namespace HttpConnectionEx

variable {env : Env} {c c' : HttpConnectionEx} {e : Event}

/-- The read at position `i` has ended with these octets. -/
def received (c : HttpConnectionEx) (i : ℕ) (op : ReadOp) (data : Bytes) : HttpConnectionEx :=
  (c.endRead i).store op.offset data

/-- The connection with the frame header that has arrived. -/
def withHeader (c : HttpConnectionEx) : HttpConnectionEx :=
  { c with frame := Http2FrameInfo.parse (c.slice 0 9) }

/-- The connection with a frame header, when the event completes one. -/
def headed (c : HttpConnectionEx) (e : Event) : Option HttpConnectionEx :=
  match e with
  | .read i data =>
    match c.arrive i data with
    | .ok (op, c) =>
      if data.length = op.length ∧ op.kind = .frameHeader then some c.withHeader else none
    | .error _ => none
  | _ => none

/-- The ways in which an event is handled. -/
inductive Outcome (env : Env) (c : HttpConnectionEx) : Event → HttpConnectionEx → Prop
  | more {i : ℕ} {op : ReadOp} {data : Bytes} (hop : c.reads[i]? = some op)
      (hlen : data.length < op.length) :
      Outcome env c (.read i data) ((c.received i op data).readBlock op.kind
        (op.offset + data.length) (op.length - data.length))
  | stranger {i : ℕ} {op : ReadOp} {data : Bytes} (hop : c.reads[i]? = some op) :
      Outcome env c (.read i data) (c.received i op data).disponse
  | greeted {i : ℕ} {op : ReadOp} {data : Bytes} {f : Http2Frame} {c' : HttpConnectionEx}
      (hop : c.reads[i]? = some op) (hf : f.type = frameTypeSettings)
      (h : ({ c.received i op data with expectAck := true }.push f).handleWrite = .ok c') :
      Outcome env c (.read i data) c'
  | tooLong {i : ℕ} {op : ReadOp} {data : Bytes} {f : Http2Frame} (hop : c.reads[i]? = some op)
      (hhead : c.headed (.read i data) = some (c.received i op data).withHeader)
      (hf : f.type = frameTypeGoaway)
      (hlong : c.endpointMaxFrameSize < (c.received i op data).withHeader.frame.length) :
      Outcome env c (.read i data) (((c.received i op data).withHeader.observe
        (.goaway (c.received i op data).withHeader.frame goawayProtocolError)).writeBlock f)
  | header {i : ℕ} {op : ReadOp} {data : Bytes} (hop : c.reads[i]? = some op)
      (hlen : (c.received i op data).withHeader.frame.length ≤ c.endpointMaxFrameSize) :
      Outcome env c (.read i data) ((c.received i op data).withHeader.readBlock .payload 0
        (c.received i op data).withHeader.frame.length)
  | frame {i : ℕ} {op : ReadOp} {data : Bytes} {c₀ c' : HttpConnectionEx}
      (hop : c.reads[i]? = some op) (hc₀ : c₀ = (c.received i op data).observe (.recv c.frame))
      (hdel : c.delivered (.read i data) = some c₀) (hacts : Actions env c₀ c₀ c')
      (h : c₀.handleFrameHeader env = .ok c') :
      Outcome env c (.read i data) c'
  | readFailed {i : ℕ} (hi : i < c.reads.length) :
      Outcome env c (.readFailed i) (c.endRead i).disponse
  | written {i : ℕ} {c' : HttpConnectionEx} (hop : c.writes[i]? = some .blocks)
      (h : (c.endWrite i).handleWrite = .ok c') : Outcome env c (.written i) c'
  | lastWritten {i : ℕ} (hop : c.writes[i]? = some .once) :
      Outcome env c (.written i) (c.endWrite i).disponse
  | writeFailed {i : ℕ} (hi : i < c.writes.length) :
      Outcome env c (.writeFailed i) (c.endWrite i).disponse

theorem arrive_eq_ok {i : ℕ} {data : Bytes} {op : ReadOp} (h : c.arrive i data = .ok (op, c')) :
    c.reads[i]? = some op ∧ data.length ≤ op.length ∧ c' = c.received i op data := by
  unfold arrive at h
  split at h
  · cases h
  · rename_i op' hop
    split_ifs at h with hlen hover
    cases h
    exact ⟨hop, by omega, rfl⟩

theorem onRead_outcome {i : ℕ} {data : Bytes} {op : ReadOp} (hop : c.reads[i]? = some op)
    (harrive : c.arrive i data = .ok (op, c.received i op data)) (hlen : data.length = op.length)
    (h : (match op.kind with
      | .magic => (c.received i op data).onMagic
      | .frameHeader => (c.received i op data).onFrameHeader
      | .payload => ((c.received i op data).observe
        (.recv (c.received i op data).frame)).handleFrameHeader env) = .ok c') :
    Outcome env c (.read i data) c' := by
  cases hkind : op.kind with
  | magic =>
    simp only [hkind, onMagic] at h
    split_ifs at h
    · cases h
      exact .stranger hop
    · exact .greeted hop rfl h
  | frameHeader =>
    simp only [hkind, onFrameHeader] at h
    split_ifs at h with hlong
    · cases h
      have hhead : c.headed (.read i data) = some (c.received i op data).withHeader := by
        simp only [headed, harrive, hlen, hkind, and_self, if_true]
      exact .tooLong hop hhead rfl hlong
    · cases h
      exact .header hop (not_lt.mp hlong)
  | payload =>
    simp only [hkind] at h
    have hdel : c.delivered (.read i data) =
        some ((c.received i op data).observe (.recv c.frame)) := by
      simp only [delivered, harrive, hlen, hkind, and_self, if_true]
      rfl
    exact .frame hop rfl hdel (handleFrameHeader_actions rfl h) h

theorem step_outcome (h : c.step (env, e) = .ok c') : Outcome env c e c' := by
  cases e with
  | read i data =>
    simp only [step] at h
    obtain ⟨⟨op, d⟩, harrive, h⟩ := bind_eq_ok.mp h
    obtain ⟨hop, hle, rfl⟩ := arrive_eq_ok harrive
    dsimp only at h
    by_cases hlen : data.length = op.length
    · rw [if_neg (not_not.mpr hlen)] at h
      exact onRead_outcome hop harrive hlen h
    · rw [if_pos hlen] at h
      cases h
      exact .more hop (by omega)
  | readFailed i =>
    simp only [step] at h
    split_ifs at h with hi
    cases h
    exact .readFailed hi
  | written i =>
    simp only [step] at h
    split at h
    · cases h
    · exact .written (by assumption) h
    · cases h
      exact .lastWritten (by assumption)
  | writeFailed i =>
    simp only [step] at h
    split_ifs at h with hi
    cases h
    exact .writeFailed hi

theorem delivered_eq_some {c₀ : HttpConnectionEx} (h : c.delivered e = some c₀) :
    ∃ i op data, c₀ = (c.received i op data).observe (.recv c.frame) := by
  unfold delivered at h
  split at h
  · split at h
    · rename_i harrive
      obtain ⟨-, -, rfl⟩ := arrive_eq_ok harrive
      split_ifs at h
      cases h
      exact ⟨_, _, _, rfl⟩
    · cases h
  · cases h

/-- The event that completes a frame hands it to `handleFrameHeader`. -/
theorem step_of_delivered {c₀ : HttpConnectionEx} (h : c.delivered e = some c₀) :
    c.step (env, e) = c₀.handleFrameHeader env := by
  unfold delivered at h
  split at h
  · rename_i i data
    split at h
    · rename_i op d harrive
      split_ifs at h with hcomplete
      cases h
      simp only [step, harrive, ok_bind]
      rw [if_neg (not_not.mpr hcomplete.1), hcomplete.2]
    · cases h
  · cases h

/-- What holds of a new connection and survives every event that meets the
condition holds in every state of every run. -/
theorem run_invariant {ok : HttpConnectionEx → Env × Event → Prop} (I : HttpConnectionEx → Prop)
    (hstart : I start)
    (hstep : ∀ c env e c', I c → ok c (env, e) → Outcome env c e c' → I c')
    {es : List (Env × Event)} (hrun : RunWhere step ok start es c) : I c := by
  refine RunWhere.invariant I ?_ hrun hstart
  intro c e c' hc hok hst
  exact hstep c e.1 e.2 c' hc hok (step_outcome hst)

/-- The condition on the frames that arrive, as a condition on steps. -/
def onFrame (cond : HttpConnectionEx → Prop) (c : HttpConnectionEx) (e : Env × Event) : Prop :=
  ∀ c₀ ∈ c.delivered e.2, cond c₀

instance (cond : HttpConnectionEx → Prop) [DecidablePred cond] (c : HttpConnectionEx)
    (e : Env × Event) : Decidable (onFrame cond c e) :=
  inferInstanceAs (Decidable (∀ c₀ ∈ c.delivered e.2, cond c₀))

/-- The events that bring one frame to a connection that waits for it with its
only read: the header, then the payload. -/
def incoming (env : Env) (type flags : UInt8) (ident : ℕ) (payload : Bytes) :
    List (Env × Event) :=
  [(env, .read 0 ((toBigEndian32 payload.length).tail ++ [type, flags] ++ toBigEndian32 ident)),
    (env, .read 0 payload)]

/-- The magic with which a client begins, and the end of the write that answers it. -/
def greeting (env : Env) : List (Env × Event) :=
  [(env, .read 0 magicString), (env, .written 0)]

/-- The header block of `GET / http` with an empty authority. -/
def getRequest : Bytes := [0x82, 0x86, 0x84, 0x81]

/-- A service without filters and mount points whose servlet writes `body`. -/
def servletService (body : Bytes) : Env where
  handleFilter h := h
  handleRequest h :=
    let header := (h.response.header.set (bytes "content-length") (toDecimal body.length)).set
      (bytes "accept-range") (bytes "bytes")
    { h with
      connType := .controller
      response := { h.response with header := header, body := body } }
  formatExpires _ := []
  indet _ := 0

def openRequest : List (Env × Event) :=
  greeting (servletService []) ++ incoming (servletService []) frameTypeSettings 1 0 [] ++
    incoming (servletService []) frameTypeHeaders 4 1 getRequest

variable {id : ℕ} {s : HttpStream} {Q : HttpStream → Prop}

/-- Every stream object of the connection has the property. -/
def AllHeld (Q : HttpStream → Prop) (c : HttpConnectionEx) : Prop :=
  ∀ id s, c.held id = some s → Q s

theorem AllHeld.congr (hc : c.AllHeld Q) (hstreams : c'.streams = c.streams)
    (hretired : c'.retired = c.retired) : c'.AllHeld Q := by
  intro id s hs
  rw [held, hstreams, hretired] at hs
  exact hc id s hs

theorem AllHeld.find? (hc : c.AllHeld Q) (h : c.streams.find? id = some s) : Q s :=
  hc id s (held_of_find? h)

theorem AllHeld.setStream (hc : c.AllHeld Q) (id : ℕ) (hs : Q s) : (c.setStream id s).AllHeld Q := by
  intro j t ht
  by_cases hj : j = id
  · rw [hj, held_setStream_self] at ht
    cases ht
    exact hs
  · rw [held_setStream_of_ne hj] at ht
    exact hc j t ht

theorem AllHeld.retire (hc : c.AllHeld Q) (id : ℕ) (hs : Q s) : (c.retire id s).AllHeld Q := by
  intro j t ht
  by_cases hj : j = id
  · rw [hj, held_retire_self] at ht
    cases ht
    exact hs
  · rw [held_retire_of_ne hj] at ht
    exact hc j t ht

theorem AllHeld.setHeld (hc : c.AllHeld Q) (id : ℕ) (hs : Q s) : (c.setHeld id s).AllHeld Q := by
  unfold HttpConnectionEx.setHeld
  split_ifs with hin
  · exact hc.setStream id hs
  · intro j t ht
    by_cases hj : j = id
    · have hnone : c.streams.find? id = none := by simpa [OrdMap.contains] using hin
      rw [hj] at ht
      simp only [held, hnone, Option.none_or, OrdMap.find?_insert_self, Option.some.injEq] at ht
      exact ht ▸ hs
    · simp only [held] at ht
      rw [OrdMap.find?_insert_of_ne _ _ hj] at ht
      exact hc j t ht

theorem AllHeld.openStream (hc : c.AllHeld Q) (id : ℕ)
    (hs : Q { endpointWindowSize := c.endpointInitWindowSize }) : (c.openStream id).AllHeld Q :=
  (hc.setStream id hs).congr rfl rfl

theorem AllHeld.handleWrite (hsent : ∀ s s', SentFrom s s' → Q s → Q s')
    (h : c.handleWrite = .ok c') (hc : c.AllHeld Q) : c'.AllHeld Q := by
  refine handleWrite_invariant (P := AllHeld Q) ?_ ?_ ?_ ?_ ?_ ?_ h hc
  · exact fun _ hd _ => hd.congr rfl rfl
  · exact fun _ hd => hd.congr rfl rfl
  · exact fun _ _ _ _ hd _ _ => hd.congr rfl rfl
  · intro d id s s' hd hfind _ hs
    exact hd.setStream id (hsent s s' hs (hd.find? hfind))
  · intro d id s s' hd hfind _ hs
    exact hd.retire id (hsent s s' hs (hd.find? hfind))
  · intro d hd _
    unfold flush
    split_ifs
    · exact hd
    · exact hd.congr rfl rfl

end HttpConnectionEx
end Sese.Service.Http
