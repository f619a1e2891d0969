import Sese.Service.Http.Requests

/-!
# Requests and their header blocks

A stream collects the octets of its header block in `temp_buffer` until a frame
with END_HEADERS arrives; the block is then decoded and converted. When DATA ends a
stream, the handler does not look at the header block, which may be missing or may
have been refused.
-/
namespace Sese.Service.Http

open Foundation Sese.Net.Http

namespace HttpConnectionEx

variable {env : Env} {c₀ c c' : HttpConnectionEx} {id : ℕ} {s s' : HttpStream}
  {o : Obs} {t u : List Obs}

/-- The octets that were collected for the header block of a stream. -/
def headerBlock (id : ℕ) : List Obs → Bytes
  | [] => []
  | .fragment f block :: t =>
    if f.ident = id then headerBlock id t ++ block else headerBlock id t
  | _ :: t => headerBlock id t

/-- A frame with END_HEADERS was received for the stream, the whole of its header
block was decoded without an error, and the request was converted. -/
def HeadersAccepted (id : ℕ) (t : List Obs) : Prop :=
  ∃ u, .converted id true :: .decoded id (headerBlock id u) 0 :: u <:+ t ∧
    ∃ f, .recv f ∈ u ∧ isHeaders f ∧ f.ident = id ∧ f.hasFlag frameFlagEndHeaders

/-- A frame that ended the header block of the stream was answered with GOAWAY. -/
def headersRefused (id : ℕ) (t : List Obs) : Bool :=
  t.any fun
    | .goaway f _ => isHeaders f && f.ident = id && f.hasFlag frameFlagEndHeaders
    | _ => false

/-- The frame is DATA that ends a stream whose header block is not complete, or was
refused. -/
def endsHeadless (c : HttpConnectionEx) : Bool :=
  c.endsRequest && (c.streams.find? c.frame.ident).any fun s =>
    !s.endHeaders || headersRefused c.frame.ident c.trace

theorem HeadersAccepted.mono (h : HeadersAccepted id t) (hsuffix : t <:+ u) :
    HeadersAccepted id u := by
  obtain ⟨v, hv, hf⟩ := h
  exact ⟨v, hv.trans hsuffix, hf⟩

theorem headersRefused_mono (h : headersRefused id t) (hsuffix : t <:+ u) :
    headersRefused id u := by
  obtain ⟨o, ho, hf⟩ := List.any_eq_true.mp h
  exact List.any_eq_true.mpr ⟨o, hsuffix.subset ho, hf⟩

/-- Every request was dispatched with a complete header block. While a stream
collects its header block, the block is all that its buffer holds. -/
structure HeadersFirst (c : HttpConnectionEx) : Prop where
  dispatched : ∀ id u, .request id :: u <:+ c.trace → HeadersAccepted id u
  collecting : ∀ id s, id ∉ c.closedStreams → c.streams.find? id = some s →
    s.endHeaders = false → s.doResponse = false ∧ s.tempBuffer = headerBlock id c.trace
  ended : ∀ id s, id ∉ c.closedStreams → c.streams.find? id = some s →
    s.endHeaders = true → HeadersAccepted id c.trace ∨ headersRefused id c.trace
  unknown : ∀ id, id ∉ c.closedStreams → c.streams.find? id = none → headerBlock id c.trace = []

/-- Observations that neither dispatch a request nor belong to a header block. -/
def isAside : Obs → Bool
  | .request _ | .fragment _ _ => false
  | _ => true

theorem headerBlock_append (hu : ∀ o ∈ u, isAside o) (id : ℕ) (t : List Obs) :
    headerBlock id (u ++ t) = headerBlock id t := by
  induction u with
  | nil => rfl
  | cons o u ih =>
    have ho := hu o List.mem_cons_self
    have ih := ih fun o ho => hu o (List.mem_cons_of_mem _ ho)
    cases o with
    | request | fragment => cases ho
    | _ => exact ih

theorem request_suffix_of_append (hu : ∀ o ∈ u, ∀ j, o ≠ .request j) {v : List Obs}
    (h : .request id :: v <:+ u ++ t) : .request id :: v <:+ t := by
  induction u with
  | nil => exact h
  | cons o u ih =>
    rcases List.suffix_cons_iff.mp h with heq | hsuffix
    · cases heq
      exact absurd rfl (hu _ List.mem_cons_self id)
    · exact ih (fun o ho => hu o (List.mem_cons_of_mem _ ho)) hsuffix

theorem HeadersFirst.append (hc : c.HeadersFirst) (u : List Obs) (htrace : c'.trace = u ++ c.trace)
    (hu : ∀ o ∈ u, isAside o) (hstreams : c'.streams = c.streams)
    (hclosed : c'.closedStreams = c.closedStreams) : c'.HeadersFirst := by
  have hsuffix : c.trace <:+ c'.trace := ⟨u, htrace.symm⟩
  have hblock : ∀ id, headerBlock id c'.trace = headerBlock id c.trace := by
    intro id
    rw [htrace, headerBlock_append hu]
  constructor
  · intro id v hv
    rw [htrace] at hv
    apply hc.dispatched id v
    apply request_suffix_of_append _ hv
    rintro o ho j rfl
    cases hu _ ho
  · intro id s hopen hfind
    rw [hblock]
    exact hc.collecting id s (hclosed ▸ hopen) (hstreams ▸ hfind)
  · intro id s hopen hfind hend
    rcases hc.ended id s (hclosed ▸ hopen) (hstreams ▸ hfind) hend with h | h
    · exact .inl (h.mono hsuffix)
    · exact .inr (headersRefused_mono h hsuffix)
  · intro id hopen hfind
    rw [hblock]
    exact hc.unknown id (hclosed ▸ hopen) (hstreams ▸ hfind)

theorem HeadersFirst.same (hc : c.HeadersFirst) (htrace : c'.trace = c.trace)
    (hstreams : c'.streams = c.streams) (hclosed : c'.closedStreams = c.closedStreams) :
    c'.HeadersFirst :=
  hc.append [] htrace (by simp) hstreams hclosed

theorem HeadersFirst.update (hc : c.HeadersFirst) (hfind : c.streams.find? id = some s)
    (hstreams : c'.streams = c.streams.insert id s') (hclosed : c'.closedStreams = c.closedStreams)
    (hsuffix : c.trace <:+ c'.trace)
    (hdispatched : ∀ j v, .request j :: v <:+ c'.trace → HeadersAccepted j v)
    (hothers : ∀ j ≠ id, headerBlock j c'.trace = headerBlock j c.trace)
    (hcollecting : id ∉ c.closedStreams → s'.endHeaders = false →
      s'.doResponse = false ∧ s'.tempBuffer = headerBlock id c'.trace)
    (hended : id ∉ c.closedStreams → s'.endHeaders = true →
      HeadersAccepted id c'.trace ∨ headersRefused id c'.trace) : c'.HeadersFirst := by
  have hself : ∀ r, c'.streams.find? id = some r → r = s' := by
    intro r hr
    rw [hstreams, OrdMap.find?_insert_self] at hr
    exact (Option.some.inj hr).symm
  have hother : ∀ j ≠ id, c'.streams.find? j = c.streams.find? j := by
    intro j hj
    rw [hstreams, OrdMap.find?_insert_of_ne _ _ hj]
  constructor
  · exact hdispatched
  · intro j r hopen hr hend
    rw [hclosed] at hopen
    by_cases hj : j = id
    · subst hj
      cases hself r hr
      exact hcollecting hopen hend
    · rw [hothers j hj]
      exact hc.collecting j r hopen (hother j hj ▸ hr) hend
  · intro j r hopen hr hend
    rw [hclosed] at hopen
    by_cases hj : j = id
    · subst hj
      cases hself r hr
      exact hended hopen hend
    · rcases hc.ended j r hopen (hother j hj ▸ hr) hend with h | h
      · exact .inl (h.mono hsuffix)
      · exact .inr (headersRefused_mono h hsuffix)
  · intro j hopen hr
    rw [hclosed] at hopen
    by_cases hj : j = id
    · subst hj
      rw [hstreams, OrdMap.find?_insert_self] at hr
      cases hr
    · rw [hothers j hj]
      exact hc.unknown j hopen (hother j hj ▸ hr)

theorem HeadersFirst.setStream (hc : c.HeadersFirst) (hfind : c.streams.find? id = some s)
    (hend : s'.endHeaders = s.endHeaders)
    (hsame : s.endHeaders = false → s.doResponse = false →
      s'.doResponse = false ∧ s'.tempBuffer = s.tempBuffer) : (c.setStream id s').HeadersFirst := by
  refine hc.update hfind rfl rfl (List.suffix_refl _) hc.dispatched (fun _ _ => rfl) ?_ ?_
  · intro hopen hcollect
    rw [hend] at hcollect
    obtain ⟨hidle, hbuffer⟩ := hc.collecting id s hopen hfind hcollect
    obtain ⟨hidle', hbuffer'⟩ := hsame hcollect hidle
    exact ⟨hidle', hbuffer'.trans hbuffer⟩
  · intro hopen hdone
    exact hc.ended id s hopen hfind (hend ▸ hdone)

theorem HeadersFirst.setHeld (hc : c.HeadersFirst) (hheld : c.held id = some s)
    (hend : s'.endHeaders = s.endHeaders) (hresp : s'.doResponse = s.doResponse)
    (hbuffer : s'.tempBuffer = s.tempBuffer) : (c.setHeld id s').HeadersFirst := by
  unfold HttpConnectionEx.setHeld
  split_ifs with hin
  · obtain ⟨r, hfind⟩ := Option.isSome_iff_exists.mp hin
    cases (held_of_find? hfind).symm.trans hheld
    exact hc.setStream hfind hend fun _ hidle => ⟨hresp.trans hidle, hbuffer⟩
  · exact hc.same rfl rfl rfl

theorem HeadersFirst.retire (hc : c.HeadersFirst) (id : ℕ) (s : HttpStream) :
    (c.retire id s).HeadersFirst := by
  have hne : ∀ {j}, j ∉ (c.retire id s).closedStreams → j ≠ id ∧ j ∉ c.closedStreams := by
    intro j hj
    simpa [HttpConnectionEx.retire] using hj
  constructor
  · exact hc.dispatched
  · intro j r hopen hr
    apply hc.collecting j r (hne hopen).2
    exact (OrdMap.find?_erase_of_ne _ (hne hopen).1).symm.trans hr
  · intro j r hopen hr
    apply hc.ended j r (hne hopen).2
    exact (OrdMap.find?_erase_of_ne _ (hne hopen).1).symm.trans hr
  · intro j hopen hr
    apply hc.unknown j (hne hopen).2
    exact (OrdMap.find?_erase_of_ne _ (hne hopen).1).symm.trans hr

theorem HeadersFirst.openStream (hc : c.HeadersFirst) (hnew : c.streams.find? id = none) :
    (c.openStream id).HeadersFirst := by
  have hd : (c.observe (.opened id c.endpointInitWindowSize)).HeadersFirst :=
    hc.append [_] rfl (by simp [isAside]) rfl rfl
  constructor
  · exact hd.dispatched
  · intro j r hopen hr hend
    by_cases hj : j = id
    · subst hj
      cases (OrdMap.find?_insert_self _ _ _).symm.trans hr
      exact ⟨rfl, (hd.unknown j hopen hnew).symm⟩
    · exact hd.collecting j r hopen ((OrdMap.find?_insert_of_ne _ _ hj).symm.trans hr) hend
  · intro j r hopen hr hend
    by_cases hj : j = id
    · subst hj
      cases (OrdMap.find?_insert_self _ _ _).symm.trans hr
      cases hend
    · exact hd.ended j r hopen ((OrdMap.find?_insert_of_ne _ _ hj).symm.trans hr) hend
  · intro j hopen hr
    by_cases hj : j = id
    · subst hj
      cases (OrdMap.find?_insert_self _ _ _).symm.trans hr
    · exact hd.unknown j hopen ((OrdMap.find?_insert_of_ne _ _ hj).symm.trans hr)

theorem HeadersFirst.handleWrite (h : c.handleWrite = .ok c') (hc : c.HeadersFirst) :
    c'.HeadersFirst := by
  refine handleWrite_invariant (P := HeadersFirst) ?_ ?_ ?_ ?_ ?_ ?_ h hc
  · exact fun _ hd _ => hd.append [_] rfl (by simp [isAside]) rfl rfl
  · exact fun _ hd => hd.append [_] rfl (by simp [isAside]) rfl rfl
  · exact fun _ _ _ _ hd _ _ => hd.append [_] rfl (by simp [isAside]) rfl rfl
  · intro d id s s' hd hfind hresp hsent
    apply hd.setStream hfind hsent.endHeaders
    intro _ hidle
    rw [hresp] at hidle
    cases hidle
  · exact fun _ id _ s' hd _ _ _ => hd.retire id s'
  · intro d hd _
    unfold flush
    split_ifs
    · exact hd
    · exact hd.same rfl rfl rfl

theorem HeadersFirst.pushed {f : Http2Frame} (h : (c.push f).handleWrite = .ok c')
    (hc : c.HeadersFirst) : c'.HeadersFirst := by
  apply HeadersFirst.handleWrite h
  exact hc.append [.put f] rfl (by simp [isAside]) rfl rfl

theorem headerBlock_fragment (f : Http2FrameInfo) (block : Bytes) (hu : ∀ o ∈ u, isAside o)
    (t : List Obs) : headerBlock f.ident (u ++ .fragment f block :: t) =
      headerBlock f.ident t ++ block ∧
    ∀ j ≠ f.ident, headerBlock j (u ++ .fragment f block :: t) = headerBlock j t := by
  constructor
  · rw [headerBlock_append hu]
    exact if_pos rfl
  · intro j hj
    rw [headerBlock_append hu]
    exact if_neg hj.symm

theorem HeadersFirst.blockEnd {f : Http2FrameInfo} {block : Bytes} (hc : c.HeadersFirst)
    (u : List Obs) (hu : ∀ o ∈ u, isAside o) (hfind : c.streams.find? f.ident = some s)
    (hend : s'.endHeaders = true) (htrace : c'.trace = u ++ .fragment f block :: c.trace)
    (hstreams : c'.streams = c.streams.insert f.ident s')
    (hclosed : c'.closedStreams = c.closedStreams)
    (hended : f.ident ∉ c.closedStreams →
      HeadersAccepted f.ident c'.trace ∨ headersRefused f.ident c'.trace) : c'.HeadersFirst := by
  obtain ⟨-, hothers⟩ := headerBlock_fragment f block hu c.trace
  apply hc.update hfind hstreams hclosed
  · exact ⟨u ++ [.fragment f block], by rw [htrace, List.append_assoc]; rfl⟩
  · intro j v hv
    apply hc.dispatched j v
    rw [htrace, List.append_cons] at hv
    apply request_suffix_of_append _ hv
    intro o ho k hk
    subst hk
    rcases List.mem_append.mp ho with ho | ho
    · cases hu _ ho
    · simp at ho
  · rw [htrace]
    exact hothers
  · intro _ hcollect
    rw [hend] at hcollect
    cases hcollect
  · exact fun hopen _ => hended hopen

theorem HeadersFirst.accepted {f : Http2FrameInfo} (hc : c.HeadersFirst) (block : Bytes)
    (hfind : c.streams.find? f.ident = some s) (hopen : f.ident ∉ c.closedStreams)
    (hcollect : s.endHeaders = false) (hrecv : .recv f ∈ c.trace) (htype : isHeaders f)
    (hflag : f.hasFlag frameFlagEndHeaders) :
    HeadersAccepted f.ident (.converted f.ident true ::
      .decoded f.ident (s.tempBuffer ++ block) 0 :: .fragment f block :: c.trace) := by
  have hbuffer := (hc.collecting f.ident s hopen hfind hcollect).2
  have hblock : headerBlock f.ident (.fragment f block :: c.trace) = s.tempBuffer ++ block := by
    rw [hbuffer]
    exact if_pos rfl
  refine ⟨.fragment f block :: c.trace, ?_, f, List.mem_cons_of_mem _ hrecv, htype, rfl, hflag⟩
  rw [hblock]

theorem HeadersFirst.dispatch (hc : c.HeadersFirst) (haccepted : HeadersAccepted id c.trace)
    (htrace : c'.trace = .request id :: c.trace) (hstreams : c'.streams = c.streams)
    (hclosed : c'.closedStreams = c.closedStreams) : c'.HeadersFirst := by
  have hsuffix : c.trace <:+ c'.trace := ⟨[_], htrace.symm⟩
  have hblock : ∀ j, headerBlock j c'.trace = headerBlock j c.trace := by
    intro j
    rw [htrace]
    rfl
  constructor
  · intro j v hv
    rw [htrace] at hv
    rcases List.suffix_cons_iff.mp hv with heq | hv
    · cases heq
      exact haccepted
    · exact hc.dispatched j v hv
  · intro j r hopen hr
    rw [hblock]
    exact hc.collecting j r (hclosed ▸ hopen) (hstreams ▸ hr)
  · intro j r hopen hr hend
    rcases hc.ended j r (hclosed ▸ hopen) (hstreams ▸ hr) hend with h | h
    · exact .inl (h.mono hsuffix)
    · exact .inr (headersRefused_mono h hsuffix)
  · intro j hopen hr
    rw [hblock]
    exact hc.unknown j (hclosed ▸ hopen) (hstreams ▸ hr)

theorem HeadersFirst.setAnswered (hc : c.HeadersFirst) (haccepted : HeadersAccepted id c.trace)
    (hend : s'.endHeaders = true) : (c.setHeld id s').HeadersFirst := by
  unfold HttpConnectionEx.setHeld
  split_ifs with hin
  · obtain ⟨r, hfind⟩ := Option.isSome_iff_exists.mp hin
    refine hc.update hfind rfl rfl (List.suffix_refl _) hc.dispatched (fun _ _ => rfl) ?_ ?_
    · intro _ hcollect
      rw [hend] at hcollect
      cases hcollect
    · exact fun _ _ => .inl haccepted
  · exact hc.same rfl rfl rfl

/-- The frame ends its stream after a header block that was accepted. -/
def Ready (c₀ : HttpConnectionEx) : Prop :=
  c₀.endsRequest → HeadersAccepted c₀.frame.ident c₀.trace ∧
    ∀ s, c₀.streams.find? c₀.frame.ident = some s → s.endHeaders = true

theorem HeadersFirst.ready (hc : c.HeadersFirst) (hok : c.endsHeadless = false) : c.Ready := by
  intro hends
  have hopen := (checksWindows_spec (checksWindows_of_endsRequest hends)).2.2
  cases hfind : c.streams.find? c.frame.ident with
  | none => simp [endsRequest, hfind] at hends
  | some s =>
    simp only [endsHeadless, hends, hfind, Bool.true_and, Option.any_some, Bool.or_eq_false_iff,
      Bool.not_eq_false'] at hok
    constructor
    · rcases hc.ended _ s hopen hfind hok.1 with h | h
      · exact h
      · rw [hok.2] at h
        cases h
    · intro r hr
      cases hr
      exact hok.1

theorem HeadersFirst.action (hready : c₀.Ready) (hrecv : .recv c₀.frame ∈ c₀.trace)
    (hsuffix : c₀.trace <:+ c.trace) (h : Action env c₀ c c') (hc : c.HeadersFirst) :
    c'.HeadersFirst := by
  have hrecv' : .recv c₀.frame ∈ c.trace := hsuffix.subset hrecv
  cases h with
  | write h => exact hc.handleWrite h
  | control | goaway | exceeded | read | credit =>
    exact hc.append [_] rfl (by simp [isAside]) rfl rfl
  | once => exact hc.append [_, _] rfl (by simp [isAside]) rfl rfl
  | latest | acked => exact hc.same rfl rfl rfl
  | opened h => exact hc.openStream (find?_eq_none_of_opens h)
  | touch hfind => exact hc.setStream hfind rfl fun _ hidle => ⟨hidle, rfl⟩
  | touchHeld hheld | body hheld => exact hc.setHeld hheld rfl rfl rfl
  | @fragment _ s s' block _ _ hfind hend hphase hbuffer =>
    obtain ⟨hself, hothers⟩ :=
      headerBlock_fragment c₀.frame block (u := []) (by simp) c.trace
    refine hc.update hfind rfl rfl (List.suffix_cons _ _) ?_ hothers ?_ ?_
    · intro j v hv
      apply hc.dispatched j v
      exact request_suffix_of_append (u := [_]) (by simp) hv
    · intro hopen _
      obtain ⟨hidle, hblock⟩ := hc.collecting _ s hopen hfind hend
      refine ⟨hphase.doResponse.trans hidle, ?_⟩
      rw [hbuffer, hblock]
      exact hself.symm
    · intro _ hdone
      rw [hphase.endHeaders, hend] at hdone
      cases hdone
  | undecodable _ _ _ _ htype _ hfind _ hphase hflag =>
    refine hc.blockEnd [.goaway _ _, .decoded _ _ _] (by simp [isAside]) hfind hphase.endHeaders
      rfl rfl rfl fun _ => .inr ?_
    simp [headersRefused, htype, hflag]
  | unconvertible _ _ _ htype _ hfind _ hphase hflag =>
    refine hc.blockEnd [.goaway _ _, .converted _ _, .decoded _ _ _] (by simp [isAside]) hfind
      hphase.endHeaders rfl rfl rfl fun _ => .inr ?_
    simp [headersRefused, htype, hflag]
  | completed _ _ _ htype hopen hfind hend hphase hflag =>
    exact hc.blockEnd [.converted _ _, .decoded _ _ _] (by simp [isAside]) hfind
      hphase.endHeaders rfl rfl rfl fun _ => .inl (hc.accepted _ hfind hopen hend hrecv' htype hflag)
  | @answered _ s s' block table table' htype hopen hfind hend hphase hflag =>
    have haccepted := hc.accepted block hfind hopen hend hrecv' htype hflag
    -- the header block is accepted as in the case before, then the request is dispatched
    let d : HttpConnectionEx := { c with
      streams := c.streams.insert c₀.frame.ident s'
      trace := .converted c₀.frame.ident true ::
        .decoded c₀.frame.ident (s.tempBuffer ++ block) 0 :: .fragment c₀.frame block :: c.trace }
    have hd : d.HeadersFirst := hc.blockEnd [.converted _ _, .decoded _ _ _] (by simp [isAside])
      hfind hphase.endHeaders rfl rfl rfl fun _ => .inl haccepted
    exact hd.dispatch haccepted rfl rfl rfl
  | accept _ _ hheld =>
    refine HeadersFirst.setHeld ?_ hheld rfl rfl rfl
    exact hc.append [.accepted _ _] rfl (by simp [isAside]) rfl rfl
  | replenish h =>
    have hd := HeadersFirst.pushed h hc
    exact hd.same rfl rfl rfl
  | replenishStream h hheld => exact (HeadersFirst.pushed h hc).setHeld hheld rfl rfl rfl
  | respond hends hheld hphase hend =>
    obtain ⟨haccepted, hended⟩ := hready hends
    obtain ⟨s₀, hfind₀, hsame⟩ := hend
    have haccepted' := haccepted.mono hsuffix
    have hdone := hphase.endHeaders.trans (hsame.trans (hended s₀ hfind₀))
    refine HeadersFirst.setAnswered ?_ (haccepted'.mono (List.suffix_cons _ _)) hdone
    exact hc.dispatch haccepted' rfl rfl rfl
  | creditStream _ _ hfind =>
    refine HeadersFirst.append (c := c.setStream c₀.frame.ident _) ?_ [_] rfl (by simp [isAside])
      rfl rfl
    exact hc.setStream hfind rfl fun _ hidle => ⟨hidle, rfl⟩
  | setting _ _ h =>
    obtain ⟨_, _, _, _, _, _, _, _, _, rfl, -⟩ := applySetting_eq h
    exact hc.same rfl rfl rfl
  | @reset _ s _ hfind =>
    have hd := hc.retire c₀.frame.ident s
    exact hd.same rfl rfl rfl

/-- In every run in which no DATA ends a stream whose header block is incomplete or
was refused, `handleRequest` is called only after END_HEADERS was received for the
stream, its header block was decoded and the request was converted. -/
theorem requests_headersAccepted {es : List (Env × Event)}
    (hrun : RunWhere step (onFrame fun c₀ => c₀.endsHeadless = false) start es c) :
    ∀ id u, .request id :: u <:+ c.trace → HeadersAccepted id u := by
  have hstart : start.HeadersFirst := by
    constructor
    · intro id u hu
      simp [start, readMagic, readBlock, List.suffix_cons_iff] at hu
    · intro id s _ hfind
      cases hfind
    · intro id s _ hfind
      cases hfind
    · intro id _ _
      rfl
  refine (run_invariant HeadersFirst hstart ?_ hrun).dispatched
  intro c env e c' hc hok h
  cases h with
  | more | header => exact hc.append [_] rfl (by simp [isAside]) rfl rfl
  | tooLong => exact hc.append [_, _] rfl (by simp [isAside]) rfl rfl
  | stranger | readFailed | lastWritten | writeFailed => exact hc.same rfl rfl rfl
  | greeted _ _ h => exact HeadersFirst.pushed h (hc.same rfl rfl rfl)
  | written _ h => exact HeadersFirst.handleWrite h (hc.same rfl rfl rfl)
  | @frame _ _ _ c₀ _ _ hc₀ hdel hacts =>
    have hd : c₀.HeadersFirst := by
      rw [hc₀]
      exact hc.append [_] rfl (by simp [isAside]) rfl rfl
    have hready := hd.ready (hok _ hdel)
    have hrecv : .recv c₀.frame ∈ c₀.trace := by
      rw [hc₀]
      exact List.mem_cons_self
    exact hacts.invariant_of_suffix
      (fun _ _ hsuffix hact hd => hd.action hready hrecv hsuffix hact) hd

theorem requests_headersAccepted_post : ∃ c : HttpConnectionEx, 1 ∈ requests c.trace ∧
    ∀ id u, .request id :: u <:+ c.trace → HeadersAccepted id u := by
  obtain ⟨c, hrun, hc⟩ := exists_run_of_any step (onFrame fun c₀ => c₀.endsHeadless = false) start
    postRequest (fun c => 1 ∈ requests c.trace) (by decide +kernel)
  exact ⟨c, by simpa using hc, requests_headersAccepted hrun⟩

def headlessRun : List (Env × Event) :=
  greeting (servletService []) ++ incoming (servletService []) frameTypeSettings 1 0 [] ++
    incoming (servletService []) frameTypePriority 0 1 [0, 0, 0, 0, 15] ++
    incoming (servletService []) frameTypeData 1 1 []

theorem headlessRun_requests :
    ∃ c, RunWhere step Unrestricted start headlessRun c ∧
      ¬ ∀ id u, .request id :: u <:+ c.trace → HeadersAccepted id u := by
  obtain ⟨c, hrun, hc⟩ := exists_run_of_any step Unrestricted start headlessRun
    (fun c => Obs.request 1 ∈ c.trace && Obs.converted 1 true ∉ c.trace) (by decide +kernel)
  simp only [Bool.and_eq_true, decide_eq_true_eq] at hc
  refine ⟨c, hrun, fun h => ?_⟩
  obtain ⟨newer, older, htrace⟩ := List.append_of_mem hc.1
  have hsuffix : Obs.request 1 :: older <:+ c.trace := ⟨newer, htrace.symm⟩
  obtain ⟨u, hu, -⟩ := h 1 older hsuffix
  have hmem : Obs.converted 1 true ∈ older := hu.subset List.mem_cons_self
  exact hc.2 (hsuffix.subset (List.mem_cons_of_mem _ hmem))

end HttpConnectionEx
end Sese.Service.Http
