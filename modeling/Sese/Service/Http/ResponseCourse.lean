import Sese.Service.Http.Transitions

/-!
# The course of a response

What a round of `handleWrite` does for one stream depends on the stream, on the window of the
connection and on `max_frame_size` only, and every round gives the stream one turn. A course is a
sequence of rounds with anything else between them that leaves the response of the stream alone.
-/
namespace Sese.Service.Http

open Foundation Sese.Net.Http

namespace HttpConnectionEx

variable {c c' d : HttpConnectionEx} {id : ℕ} {s : HttpStream} {w : Written} {t u : List Obs}

/-- The frames that were put into `pre_vector`, the oldest first. -/
def queued : List Obs → List Http2Frame
  | [] => []
  | .put f :: t => queued t ++ [f]
  | _ :: t => queued t

theorem queued_append (t u : List Obs) : queued (t ++ u) = queued u ++ queued t := by
  induction t with
  | nil => exact (List.append_nil _).symm
  | cons o t ih =>
    cases o with
    | put f =>
      change queued (t ++ u) ++ [f] = queued u ++ (queued t ++ [f])
      rw [ih, List.append_assoc]
    | _ => exact ih

def isResponse (id : ℕ) (f : Http2Frame) : Bool :=
  f.ident = id && (isHeaders f.toHttp2FrameInfo || f.type = frameTypeData)

def responseFrames (id : ℕ) (fs : List Http2Frame) : List Http2Frame := fs.filter (isResponse id)

@[simp] theorem responseFrames_append (fs gs : List Http2Frame) :
    responseFrames id (fs ++ gs) = responseFrames id fs ++ responseFrames id gs :=
  List.filter_append _ _

def payloads (fs : List Http2Frame) : Bytes := fs.flatMap Http2Frame.payload

@[simp] theorem payloads_singleton (f : Http2Frame) : payloads [f] = f.payload :=
  List.flatMap_singleton _ _

@[simp] theorem payloads_append (fs gs : List Http2Frame) :
    payloads (fs ++ gs) = payloads fs ++ payloads gs :=
  List.flatMap_append

theorem payload_of_length {f : Http2Frame} (h : f.length = f.content.length) :
    f.payload = f.content := by
  simp [Http2Frame.payload, h]

theorem length_payload (f : Http2Frame) : f.payload.length = f.length := by
  rw [Http2Frame.payload, List.length_append, List.length_take, List.length_replicate]
  omega

theorem isResponse_of_sentFrame {n : ℕ} {f : Http2Frame} (h : SentFrame id n f) :
    isResponse id f = true := by
  obtain ⟨hident, htype | ⟨htype, -⟩⟩ := h
  · simp [isResponse, isHeaders, hident, htype]
  · simp [isResponse, hident, htype]

theorem isResponse_of_ne {j n : ℕ} {f : Http2Frame} (h : SentFrame j n f) (hne : j ≠ id) :
    isResponse id f = false := by
  simp [isResponse, h.1, hne]

theorem writeStream_congr (hframe : d.maxFrameSize = c.maxFrameSize)
    (hwindow : d.endpointWindowSize = c.endpointWindowSize) (id : ℕ) (s : HttpStream) :
    d.writeStream id s = c.writeStream id s := by
  have hremind : ∀ s, d.remind s = c.remind s := fun s => by simp only [remind, hframe, hwindow]
  simp only [writeStream, writeHeadersFrame, writeDataFrame4Body, writeDataFrame4SingleRange,
    writeDataFrame4Ranges, hframe, hwindow, hremind]

theorem applyWritten_maxFrameSize (c : HttpConnectionEx) (id : ℕ) (w : Written) :
    (c.applyWritten id w).maxFrameSize = c.maxFrameSize := by
  unfold applyWritten
  split_ifs <;> cases w.frame <;> rfl

theorem applyWritten_endpointWindowSize (c : HttpConnectionEx) (id : ℕ) (w : Written) :
    (c.applyWritten id w).endpointWindowSize = c.endpointWindowSize := by
  unfold applyWritten
  split_ifs <;> cases w.frame <;> rfl

theorem applyWritten_find?_self (c : HttpConnectionEx) (id : ℕ) (w : Written) :
    (c.applyWritten id w).streams.find? id = if w.done then none else some w.stream := by
  unfold applyWritten
  split_ifs
  · exact OrdMap.find?_erase_self _ _
  · exact OrdMap.find?_insert_self _ _ _

theorem applyWritten_queued (c : HttpConnectionEx) (id : ℕ) (w : Written) :
    ∃ t, (c.applyWritten id w).trace = t ++ c.trace ∧ queued t = w.frame.toList := by
  unfold applyWritten
  cases w.frame with
  | none => split_ifs <;> exact ⟨[], rfl, rfl⟩
  | some f => split_ifs <;> exact ⟨[.put f], rfl, rfl⟩

/-- What the loop does for a stream: nothing if it does not come to it, and one turn if it does. -/
structure Turns (l : List (ℕ × HttpStream)) (c c' : HttpConnectionEx) (t : List Obs) : Prop where
  trace : c'.trace = t ++ c.trace
  absent : ∀ id, (∀ e ∈ l, e.1 ≠ id) →
    responseFrames id (queued t) = [] ∧ c'.streams.find? id = c.streams.find? id
  turn : ∀ id s, (id, s) ∈ l → ∃ w, c.writeStream id s = .ok w ∧
    responseFrames id (queued t) = w.frame.toList ∧
    c'.streams.find? id = if w.done then none else some w.stream

theorem responseFrames_turn (h : c.writeStream id s = .ok w) (j : ℕ) :
    responseFrames j w.frame.toList = if j = id then w.frame.toList else [] := by
  obtain ⟨-, hframe⟩ := writeStream_turn h
  cases hf : w.frame with
  | none => split_ifs <;> rfl
  | some f =>
    have hsent := hframe f (by rw [hf]; rfl)
    split_ifs with hj
    · subst hj
      simp [responseFrames, isResponse_of_sentFrame hsent]
    · simp [responseFrames, isResponse_of_ne hsent (Ne.symm hj)]

theorem writeLoop_turns {l : List (ℕ × HttpStream)} (hl : l.Pairwise fun a b => a.1 < b.1)
    (h : writeLoop l c = .ok c') : ∃ t, Turns l c c' t := by
  induction l generalizing c with
  | nil =>
    cases h
    exact ⟨[], rfl, fun _ _ => ⟨rfl, rfl⟩, fun id s hmem => by cases hmem⟩
  | cons e l ih =>
    obtain ⟨id, s⟩ := e
    obtain ⟨w, hwrite, h⟩ := bind_eq_ok.mp h
    obtain ⟨hfirst, hrest⟩ := List.pairwise_cons.mp hl
    obtain ⟨t, htrace, habsent, hturn⟩ := ih hrest h
    obtain ⟨t₀, htrace₀, hqueued₀⟩ := applyWritten_queued c id w
    have hid : ∀ e ∈ l, e.1 ≠ id := fun e he => (hfirst e he).ne'
    refine ⟨t ++ t₀, ?_, ?_, ?_⟩
    · rw [htrace, htrace₀, List.append_assoc]
    · intro j hj
      have hne : j ≠ id := (hj (id, s) List.mem_cons_self).symm
      obtain ⟨hnone, hsame⟩ := habsent j fun e he => hj e (List.mem_cons_of_mem _ he)
      rw [queued_append, responseFrames_append, hnone, hqueued₀, responseFrames_turn hwrite,
        if_neg hne, hsame, applyWritten_find?_of_ne hne]
      exact ⟨rfl, rfl⟩
    · intro j s' hmem
      rcases List.mem_cons.mp hmem with heq | hmem
      · obtain ⟨rfl, rfl⟩ := Prod.mk.inj heq
        obtain ⟨hnone, hsame⟩ := habsent j hid
        refine ⟨w, hwrite, ?_, ?_⟩
        · rw [queued_append, responseFrames_append, hnone, hqueued₀, responseFrames_turn hwrite,
            if_pos rfl, List.append_nil]
        · rw [hsame, applyWritten_find?_self]
      · have hne : j ≠ id := hid _ hmem
        obtain ⟨w', hwrite', hframes, hfind⟩ := hturn j s' hmem
        refine ⟨w', ?_, ?_, hfind⟩
        · rwa [writeStream_congr (applyWritten_maxFrameSize c id w)
            (applyWritten_endpointWindowSize c id w)] at hwrite'
        · rw [queued_append, responseFrames_append, hframes, hqueued₀, responseFrames_turn hwrite,
            if_neg hne, List.nil_append]

theorem handleWrite_turn (h : c.handleWrite = .ok c') (id : ℕ) :
    ∃ t, c'.trace = t ++ c.trace ∧
      ((c.isWrite = true ∨ c.streams.find? id = none) ∧ responseFrames id (queued t) = [] ∧
          c'.streams.find? id = c.streams.find? id ∨
        c.isWrite = false ∧ ∃ s, c.streams.find? id = some s ∧ ∃ w, c.writeStream id s = .ok w ∧
          responseFrames id (queued t) = w.frame.toList ∧
          c'.streams.find? id = if w.done then none else some w.stream) := by
  obtain ⟨d, hstart, hround⟩ := handleWrite_eq_ok h
  have hd : ∃ t₀, d.trace = t₀ ++ c.trace ∧ queued t₀ = [] ∧ d.isWrite = c.isWrite ∧
      d.streams = c.streams ∧ d.maxFrameSize = c.maxFrameSize ∧
      d.endpointWindowSize = c.endpointWindowSize := by
    rcases hstart with rfl | ⟨-, rfl⟩
    · exact ⟨[], rfl, rfl, rfl, rfl, rfl, rfl⟩
    · exact ⟨[.readBlock 9], rfl, rfl, rfl, rfl, rfl, rfl⟩
  obtain ⟨t₀, htrace₀, hqueued₀, hwriting, hstreams, hframe, hwindow⟩ := hd
  rcases hround with ⟨hw, rfl⟩ | ⟨hw, d', hloop, rfl⟩
  · refine ⟨t₀, htrace₀, .inl ⟨.inl (hwriting ▸ hw), by rw [hqueued₀]; rfl, by rw [hstreams]⟩⟩
  · obtain ⟨turns, hbegin⟩ : ∃ turns, d.beginRound = d.observe (.round turns) := ⟨_, rfl⟩
    rw [hbegin] at hloop
    obtain ⟨t, htrace, habsent, hturn⟩ := writeLoop_turns d.streams.sorted hloop
    have hflush : d'.flush.trace = d'.trace ∧ d'.flush.streams = d'.streams := by
      unfold flush
      split_ifs <;> exact ⟨rfl, rfl⟩
    have hqueued : queued (t ++ [.round turns] ++ t₀) = queued t := by
      rw [queued_append, hqueued₀, queued_append]
      rfl
    refine ⟨t ++ [.round turns] ++ t₀, ?_, ?_⟩
    · rw [hflush.1, htrace, List.append_assoc, List.append_assoc, ← htrace₀]
      rfl
    · rw [hqueued, hflush.2, ← hstreams]
      cases hfind : d.streams.find? id with
      | none =>
        have hnot : ∀ e ∈ d.streams.entries, e.1 ≠ id := by
          intro e he heq
          have hsome := d.streams.find?_eq_some_of_mem he
          rw [heq, hfind] at hsome
          cases hsome
        obtain ⟨hnone, hsame⟩ := habsent id hnot
        exact .inl ⟨.inr rfl, hnone, hsame.trans hfind⟩
      | some s =>
        have hmem : (id, s) ∈ d.streams.entries :=
          (OrdMap.mem_entries_iff Function.injective_id d.streams (id, s)).mpr hfind
        obtain ⟨w, hwrite, hframes, hfind'⟩ := hturn id s hmem
        refine .inr ⟨hwriting ▸ hw, s, rfl, w, ?_, hframes, hfind'⟩
        rwa [writeStream_congr (d := d.observe (.round turns)) hframe hwindow] at hwrite

section Views

variable {α β : Type} {view : HttpStream → α} {view' : HttpStream → β}

/-- Anything that leaves these parts of the stream alone and queues no frame of its response. -/
structure Elsewhere (view : HttpStream → α) (id : ℕ) (c c' : HttpConnectionEx) : Prop where
  stream : (c'.streams.find? id).map view = (c.streams.find? id).map view
  trace : ∃ t, c'.trace = t ++ c.trace ∧ responseFrames id (queued t) = []

/-- Calls of `handleWrite`, on these connections, and other things between them. -/
inductive Course (view : HttpStream → α) (id : ℕ) :
    List HttpConnectionEx → HttpConnectionEx → HttpConnectionEx → Prop
  | refl (c : HttpConnectionEx) : Course view id [] c c
  | write {writes : List HttpConnectionEx} {c₀ c c' : HttpConnectionEx} :
      Course view id writes c₀ c → c.handleWrite = .ok c' →
        Course view id (writes ++ [c]) c₀ c'
  | other {writes : List HttpConnectionEx} {c₀ c c' : HttpConnectionEx} :
      Course view id writes c₀ c → Elsewhere view id c c' → Course view id writes c₀ c'

theorem Elsewhere.mono (h : Elsewhere view id c c')
    (hview : ∀ s s', view s' = view s → view' s' = view' s) : Elsewhere view' id c c' := by
  refine ⟨?_, h.trace⟩
  have hstream := h.stream
  cases hfind : c.streams.find? id with
  | none =>
    rw [hfind, Option.map_none, Option.map_eq_none_iff] at hstream
    rw [hstream]
  | some s =>
    rw [hfind, Option.map_some] at hstream
    obtain ⟨s', hfind', hs'⟩ := Option.map_eq_some_iff.mp hstream
    rw [hfind', Option.map_some, Option.map_some, hview s s' hs']

theorem Course.mono {writes : List HttpConnectionEx} {c₀ : HttpConnectionEx}
    (h : Course view id writes c₀ c) (hview : ∀ s s', view s' = view s → view' s' = view' s) :
    Course view' id writes c₀ c := by
  induction h with
  | refl => exact .refl _
  | write _ hwrite ih => exact ih.write hwrite
  | other _ helse ih => exact ih.other (helse.mono hview)

theorem Course.trans {writes writes' : List HttpConnectionEx} {c₀ : HttpConnectionEx}
    (h : Course view id writes c₀ c) (h' : Course view id writes' c c') :
    Course view id (writes ++ writes') c₀ c' := by
  induction h' with
  | refl => rwa [List.append_nil]
  | write _ hwrite ih =>
    rw [← List.append_assoc]
    exact (ih h).write hwrite
  | other _ helse ih => exact (ih h).other helse

/-- The rule for courses: what a turn of the stream keeps, together with the connections of the
calls and the frames of the response so far. -/
theorem Course.invariant
    {P : List HttpConnectionEx → List Http2Frame → Option HttpStream → Prop}
    {writes : List HttpConnectionEx} {c₀ : HttpConnectionEx} (h : Course view id writes c₀ c)
    (hstart : P [] [] (c₀.streams.find? id))
    (hpass : ∀ writes fs c, P writes fs (c.streams.find? id) →
      c.isWrite = true ∨ c.streams.find? id = none → P (writes ++ [c]) fs (c.streams.find? id))
    (hturn : ∀ writes fs c s w, P writes fs (some s) → c.streams.find? id = some s →
      c.isWrite = false → c.writeStream id s = .ok w →
      P (writes ++ [c]) (fs ++ w.frame.toList) (if w.done then none else some w.stream))
    (hother : ∀ writes fs (s s' : Option HttpStream), P writes fs s →
      s'.map view = s.map view → P writes fs s') :
    ∃ t, c.trace = t ++ c₀.trace ∧
      P writes (responseFrames id (queued t)) (c.streams.find? id) := by
  induction h with
  | refl c => exact ⟨[], rfl, hstart⟩
  | @write writes c₀ c c' _ hwrite ih =>
    obtain ⟨u, hu, hP⟩ := ih hstart
    obtain ⟨t, ht, hround⟩ := handleWrite_turn hwrite id
    refine ⟨t ++ u, by rw [ht, hu, List.append_assoc], ?_⟩
    rw [queued_append, responseFrames_append]
    rcases hround with ⟨hpassed, hnone, hsame⟩ | ⟨hw, s, hfind, w, hwritten, hframes, hfind'⟩
    · rw [hnone, hsame, List.append_nil]
      exact hpass writes _ c hP hpassed
    · rw [hframes, hfind']
      rw [hfind] at hP
      exact hturn writes _ c s w hP hfind hw hwritten
  | @other writes c₀ c c' _ helse ih =>
    obtain ⟨u, hu, hP⟩ := ih hstart
    obtain ⟨t, ht, hnone⟩ := helse.trace
    refine ⟨t ++ u, by rw [ht, hu, List.append_assoc], ?_⟩
    rw [queued_append, responseFrames_append, hnone, List.append_nil]
    exact hother writes _ _ _ hP helse.stream

end Views

/-- The parts of a stream that decide what is sent of its response. -/
def answer (s : HttpStream) : Bool × ConnType × Bytes × Bytes :=
  (s.doResponse, s.connType, s.tempBuffer, s.response.body)

/-- The stream sends a general response, of which these octets of the header block and of the body
are left. -/
structure Responding (block body : Bytes) (s : HttpStream) : Prop where
  doResponse : s.doResponse = true
  connType : s.connType ≠ .fileDownload
  block : s.tempBuffer = block
  body : s.response.body = body

theorem Responding.of_answer {block body : Bytes} {s' : HttpStream} (h : Responding block body s)
    (hanswer : answer s' = answer s) : Responding block body s' := by
  obtain ⟨hresp, hrest⟩ := Prod.mk.inj hanswer
  obtain ⟨htype, hrest⟩ := Prod.mk.inj hrest
  obtain ⟨hblock, hbody⟩ := Prod.mk.inj hrest
  exact ⟨hresp.trans h.doResponse, htype.trans_ne h.connType, hblock.trans h.block,
    hbody.trans h.body⟩

/-- The header block comes first, then the body, then the end. -/
theorem Responding.turn {block body : Bytes} (h : Responding block body s)
    (hwrite : c.writeStream id s = .ok w) :
    block ≠ [] ∧ w = c.writeHeadersFrame id s true ∨
      block = [] ∧ body ≠ [] ∧ w = c.writeDataFrame4Body id s ∨
      block = [] ∧ body = [] ∧ w = ⟨none, s, true⟩ := by
  unfold writeStream at hwrite
  simp only [h.doResponse, Bool.not_true, Bool.false_eq_true, if_false, if_neg h.connType,
    h.block, h.body, Bool.not_eq_true', List.isEmpty_eq_false_iff] at hwrite
  split_ifs at hwrite with hblock hbody
  · exact .inl ⟨hblock, (Except.ok.inj hwrite).symm⟩
  · exact .inr (.inl ⟨not_not.mp hblock, hbody, (Except.ok.inj hwrite).symm⟩)
  · exact .inr (.inr ⟨not_not.mp hblock, not_not.mp hbody, (Except.ok.inj hwrite).symm⟩)

variable {env : Env} {e : Event}

/-- All of the stream but the request, the windows, and the type of the last frame. -/
def reply (s : HttpStream) : HttpStream :=
  { s with request := {}, endpointWindowSize := 0, windowSize := 0, continueType := 0 }

theorem Elsewhere.of_find? (hfind : c'.streams.find? id = c.streams.find? id)
    (htrace : c'.trace = t ++ c.trace) (hqueued : responseFrames id (queued t) = []) :
    Elsewhere reply id c c' :=
  ⟨by rw [hfind], t, htrace, hqueued⟩

theorem Elsewhere.push {f : Http2Frame} (hdata : f.type ≠ frameTypeData)
    (hheaders : isHeaders f.toHttp2FrameInfo = false) : Elsewhere reply id c (c.push f) := by
  refine ⟨rfl, [.put f], rfl, ?_⟩
  simp [queued, responseFrames, isResponse, hdata, hheaders]

theorem setHeld_find?_of_ne {j : ℕ} (hne : j ≠ id) (s : HttpStream) :
    (c.setHeld j s).streams.find? id = c.streams.find? id := by
  unfold setHeld
  split_ifs
  · exact OrdMap.find?_insert_of_ne _ _ hne.symm
  · rfl

theorem Elsewhere.setHeld {j : ℕ} {s' : HttpStream} (hheld : c.held j = some s)
    (hreply : reply s' = reply s) : Elsewhere reply id c (c.setHeld j s') := by
  refine ⟨?_, [], setHeld_trace, rfl⟩
  by_cases hne : j = id
  · subst hne
    unfold HttpConnectionEx.setHeld
    split_ifs with hcontains
    · obtain ⟨s₀, hfind⟩ := Option.isSome_iff_exists.mp hcontains
      rw [held_of_find? hfind] at hheld
      cases hheld
      change ((c.streams.insert j s').find? j).map reply = _
      rw [OrdMap.find?_insert_self, hfind, Option.map_some, Option.map_some, hreply]
    · rfl
  · rw [setHeld_find?_of_ne hne]

/-- A frame that cannot change the response of the stream: one of another stream, or more window. -/
def SparesResponse (id : ℕ) (c : HttpConnectionEx) : Prop :=
  c.frame.ident ≠ id ∨ c.frame.type = frameTypeWindowUpdate

theorem SparesResponse.ne_of_type {type : UInt8} (h : SparesResponse id c)
    (htype : c.frame.type = type) (hne : type ≠ frameTypeWindowUpdate) : c.frame.ident ≠ id :=
  h.resolve_right fun h => hne (htype.symm.trans h)

theorem SparesResponse.ne_of_headers (h : SparesResponse id c) (htype : isHeaders c.frame) :
    c.frame.ident ≠ id := by
  apply h.resolve_right
  intro hupdate
  simp [isHeaders, hupdate, frameTypeWindowUpdate, frameTypeHeaders, frameTypeContinuation] at htype

theorem SparesResponse.ne_of_opens (h : SparesResponse id c) (hopens : c.opens) :
    c.frame.ident ≠ id := by
  apply h.resolve_right
  intro hupdate
  simp [opens, hupdate, frameTypeWindowUpdate, frameTypeHeaders, frameTypePriority] at hopens

theorem Course.one (h : Elsewhere reply id c c') :
    ∃ writes, Course reply id writes c c' :=
  ⟨[], .other (.refl c) h⟩

theorem Action.course {c₀ : HttpConnectionEx} (h : Action env c₀ c c')
    (hspares : SparesResponse id c₀) : ∃ writes, Course reply id writes c c' := by
  cases h with
  | write h => exact ⟨[c], .write (.refl c) h⟩
  | control f hdata _ hheaders => exact Course.one (.push hdata hheaders)
  | goaway | exceeded | read | credit => exact Course.one (.of_find? (t := [_]) rfl rfl rfl)
  | once => exact Course.one (.of_find? (t := [_, _]) rfl rfl rfl)
  | latest | acked => exact Course.one (.of_find? (t := []) rfl rfl rfl)
  | opened h =>
    have hne := hspares.ne_of_opens h
    exact Course.one (.of_find? (t := [_]) (OrdMap.find?_insert_of_ne _ _ hne.symm) rfl rfl)
  | touch hfind =>
    rw [← setHeld_of_find? hfind]
    exact Course.one (.setHeld (held_of_find? hfind) rfl)
  | touchHeld hheld => exact Course.one (.setHeld hheld rfl)
  | body hheld => exact Course.one (.setHeld hheld rfl)
  | fragment htype =>
    have hne := hspares.ne_of_headers htype
    exact Course.one (.of_find? (t := [_]) (OrdMap.find?_insert_of_ne _ _ hne.symm) rfl rfl)
  | undecodable _ _ _ _ htype | completed _ _ _ htype =>
    have hne := hspares.ne_of_headers htype
    exact Course.one (.of_find? (t := [_, _, _]) (OrdMap.find?_insert_of_ne _ _ hne.symm) rfl rfl)
  | unconvertible _ _ _ htype | answered _ _ _ _ htype =>
    have hne := hspares.ne_of_headers htype
    exact Course.one (.of_find? (t := [_, _, _, _]) (OrdMap.find?_insert_of_ne _ _ hne.symm) rfl rfl)
  | accept htype =>
    have hne := hspares.ne_of_type htype (by decide)
    exact Course.one (.of_find? (t := [_]) (setHeld_find?_of_ne hne _) setHeld_trace rfl)
  | replenish h =>
    refine ⟨_, .other (.write (.other (.refl c) (.push ?_ rfl)) h) ?_⟩
    · exact show frameTypeWindowUpdate ≠ frameTypeData by decide
    · exact .of_find? (t := []) rfl rfl rfl
  | replenishStream h hheld =>
    refine ⟨_, .other (.write (.other (.refl c) (.push ?_ rfl)) h) ?_⟩
    · exact show frameTypeWindowUpdate ≠ frameTypeData by decide
    · exact .setHeld hheld rfl
  | respond hends =>
    have hne := hspares.ne_of_type (isData_of_endsRequest hends) (by decide)
    exact Course.one (.of_find? (t := [_]) (setHeld_find?_of_ne hne _) setHeld_trace rfl)
  | @creditStream _ s i _ hfind =>
    have hset : Elsewhere reply id c (c.setStream c₀.frame.ident { s with
        continueType := c₀.frame.type
        endpointWindowSize := (s.endpointWindowSize + i) % 2 ^ 32 }) := by
      rw [← setHeld_of_find? hfind]
      exact .setHeld (held_of_find? hfind) rfl
    exact ⟨[], .other (.other (.refl c) hset) (.of_find? (t := [_]) rfl rfl rfl)⟩
  | setting _ _ h =>
    obtain ⟨_, _, _, _, _, _, _, _, _, rfl, -⟩ := applySetting_eq h
    exact Course.one (.of_find? (t := []) rfl rfl rfl)
  | reset _ _ htype =>
    have hne := hspares.ne_of_type htype (by decide)
    exact Course.one (.of_find? (t := []) (OrdMap.find?_erase_of_ne _ hne.symm) rfl rfl)

theorem Outcome.course (h : Outcome env c e c')
    (hspares : onFrame (SparesResponse id) c (env, e)) : ∃ writes, Course reply id writes c c' := by
  cases h with
  | more | header => exact Course.one (.of_find? (t := [_]) rfl rfl rfl)
  | tooLong => exact Course.one (.of_find? (t := [_, _]) rfl rfl rfl)
  | stranger | readFailed | lastWritten | writeFailed =>
    exact Course.one (.of_find? (t := []) rfl rfl rfl)
  | @greeted i op data f _ _ hf h =>
    have hmagic : Elsewhere reply id c { c.received i op data with expectAck := true } :=
      .of_find? (t := []) rfl rfl rfl
    have hpush : Elsewhere reply id { c.received i op data with expectAck := true }
        ({ c.received i op data with expectAck := true }.push f) := by
      apply Elsewhere.push
      · rw [hf]
        decide
      · simp [isHeaders, hf, frameTypeSettings, frameTypeHeaders, frameTypeContinuation]
    exact ⟨_, .write (.other (.other (.refl c) hmagic) hpush) h⟩
  | @written i _ _ h =>
    have hend : Elsewhere reply id c (c.endWrite i) := .of_find? (t := []) rfl rfl rfl
    exact ⟨_, .write (.other (.refl c) hend) h⟩
  | @frame i op data _ _ _ hc₀ hdel hacts =>
    subst hc₀
    have hrecv : Elsewhere reply id c ((c.received i op data).observe (.recv c.frame)) :=
      .of_find? (t := [.recv c.frame]) rfl rfl rfl
    have hhandle : ∀ d, Actions env ((c.received i op data).observe (.recv c.frame))
        ((c.received i op data).observe (.recv c.frame)) d → ∃ writes, Course reply id writes c d := by
      intro d hd
      induction hd with
      | refl => exact Course.one hrecv
      | tail _ hact ih =>
        obtain ⟨writes, hcourse⟩ := ih
        obtain ⟨writes', hcourse'⟩ := hact.course (hspares _ hdel)
        exact ⟨_, hcourse.trans hcourse'⟩
    exact hhandle _ hacts

/-- A run that brings no frame of the stream but WINDOW_UPDATE is a course of its response. -/
theorem run_replyCourse {es : List (Env × Event)}
    (hrun : RunWhere step (onFrame (SparesResponse id)) c es c') :
    ∃ writes, Course reply id writes c c' := by
  induction hrun with
  | nil => exact ⟨[], .refl _⟩
  | cons hspares hstep _ ih =>
    obtain ⟨writes, hcourse⟩ := (step_outcome hstep).course hspares
    obtain ⟨writes', hcourse'⟩ := ih
    exact ⟨_, hcourse.trans hcourse'⟩

theorem run_course {es : List (Env × Event)}
    (hrun : RunWhere step (onFrame (SparesResponse id)) c es c') :
    ∃ writes, Course answer id writes c c' := by
  obtain ⟨writes, hcourse⟩ := run_replyCourse hrun
  refine ⟨writes, hcourse.mono ?_⟩
  intro s s' hreply
  have hanswer : answer (reply s') = answer (reply s) := congrArg answer hreply
  exact hanswer

def generalResponse (block body : Bytes) : HttpStream where
  endpointWindowSize := 65535
  doResponse := true
  connType := .controller
  tempBuffer := block
  response := { body := body }

/-- A connection with one stream, which has this response to send. -/
def responding (block body : Bytes) : HttpConnectionEx where
  isRead := true
  streams := OrdMap.empty.insert 1 (generalResponse block body)

theorem generalResponse_responding (block body : Bytes) :
    Responding block body (generalResponse block body) :=
  ⟨rfl, ConnType.noConfusion, rfl, rfl⟩

theorem responding_find? (block body : Bytes) :
    (responding block body).streams.find? 1 = some (generalResponse block body) :=
  OrdMap.find?_insert_self _ _ _

end HttpConnectionEx
end Sese.Service.Http
