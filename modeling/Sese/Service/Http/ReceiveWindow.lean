import Sese.Service.Http.Transitions

/-!
# The receive windows

The server advertises 65535 octets per stream in its SETTINGS frame, but the window
of a new stream is zero until the first WINDOW_UPDATE frame for it. What the code
does keep is the account of the WINDOW_UPDATE frames: the window of a stream is
what was granted by them less what was accepted, and the window of the connection
is 65535 octets more.
-/
namespace Sese.Service.Http

open Foundation Sese.Net.Http

namespace HttpConnectionEx

variable {env : Env} {c₀ c c' : HttpConnectionEx} {id : ℕ} {s s' : HttpStream} {o : Obs}

/-- The DATA that has arrived on the streams in `p`. -/
def dataReceived (p : ℕ → Bool) : List Obs → ℕ
  | [] => 0
  | .recv f :: t => (if f.type = frameTypeData ∧ p f.ident then f.length else 0) + dataReceived p t
  | _ :: t => dataReceived p t

/-- The increments of the WINDOW_UPDATE frames that the server has sent for `id`. -/
def granted (id : ℕ) : List Obs → ℕ
  | [] => 0
  | .put f :: t =>
    (if f.type = frameTypeWindowUpdate ∧ f.ident = id then fromBigEndian f.payload else 0) +
      granted id t
  | _ :: t => granted id t

def FlowRefused (t : List Obs) : Prop :=
  ∃ f, Obs.goaway f goawayFlowControlError ∈ t ∧ f.type = frameTypeData

/-- The client stays within its windows, those of the streams being `initial` at
first: if the frame is DATA, all DATA up to it is covered by what was granted. -/
def Conforms (initial : ℕ) (c : HttpConnectionEx) : Prop :=
  c.frame.type = frameTypeData →
    dataReceived (· = c.frame.ident) c.trace ≤ initial + granted c.frame.ident c.trace ∧
      dataReceived (fun _ => true) c.trace ≤ 65535 + granted 0 c.trace

instance (initial : ℕ) : DecidablePred (Conforms initial) := fun c =>
  inferInstanceAs (Decidable (c.frame.type = frameTypeData → _ ∧ _))

/-- Observations that do not bear on the account. -/
def isBeside : Obs → Bool
  | .recv _ | .accepted _ _ => false
  | .put f => f.type ≠ frameTypeWindowUpdate
  | .goaway f code => !(f.type = frameTypeData && code = goawayFlowControlError)
  | _ => true

/-- The numbers of the account are the same. -/
structure SameAccount (t t' : List Obs) : Prop where
  received : ∀ p, dataReceived p t' = dataReceived p t
  accepted : ∀ p, accepted p t' = accepted p t
  granted : ∀ id, granted id t' = granted id t
  refused : FlowRefused t' → FlowRefused t

theorem SameAccount.trans {t₁ t₂ t₃ : List Obs} (h : SameAccount t₁ t₂) (h' : SameAccount t₂ t₃) :
    SameAccount t₁ t₃ where
  received p := (h'.received p).trans (h.received p)
  accepted p := (h'.accepted p).trans (h.accepted p)
  granted id := (h'.granted id).trans (h.granted id)
  refused hr := h.refused (h'.refused hr)

theorem FlowRefused.of_cons {t : List Obs} (h : FlowRefused (o :: t))
    (ho : ∀ f, o = .goaway f goawayFlowControlError → f.type ≠ frameTypeData) : FlowRefused t := by
  obtain ⟨f, hf, htype⟩ := h
  rcases List.mem_cons.mp hf with rfl | hf
  · exact absurd htype (ho f rfl)
  · exact ⟨f, hf, htype⟩

theorem SameAccount.cons (ho : isBeside o) (t : List Obs) : SameAccount t (o :: t) := by
  have hrefused : FlowRefused (o :: t) → FlowRefused t := by
    refine fun hr => hr.of_cons ?_
    rintro f rfl htype
    simp [isBeside, htype] at ho
  cases o with
  | recv | accepted => cases ho
  | put f =>
    have hf : f.type ≠ frameTypeWindowUpdate := by simpa [isBeside] using ho
    exact ⟨fun _ => rfl, fun _ => rfl, fun id => by simp [HttpConnectionEx.granted, hf], hrefused⟩
  | _ => exact ⟨fun _ => rfl, fun _ => rfl, fun _ => rfl, hrefused⟩

theorem SameAccount.append (u : List Obs) (hu : ∀ o ∈ u, isBeside o) (t : List Obs) :
    SameAccount t (u ++ t) := by
  induction u with
  | nil => exact ⟨fun _ => rfl, fun _ => rfl, fun _ => rfl, id⟩
  | cons o u ih =>
    have hrest := ih fun o ho => hu o (List.mem_cons_of_mem _ ho)
    exact hrest.trans (.cons (hu o List.mem_cons_self) _)

/-- The windows are what was granted less what was accepted, apart from the
increments in `debt`, which were sent and are not yet added to their windows. -/
structure Windows (debt : ℕ → ℕ) (c : HttpConnectionEx) : Prop where
  connection : 65535 + granted 0 c.trace ≤ c.windowSize + accepted (fun _ => true) c.trace + debt 0
  stream : ∀ id s, id ≠ 0 → id ∉ c.closedStreams → c.streams.find? id = some s →
    granted id c.trace ≤ s.windowSize + accepted (· = id) c.trace + debt id
  unknown : ∀ id, id ≠ 0 → id ∉ c.closedStreams → c.streams.find? id = none →
    granted id c.trace ≤ debt id
  retired : ∀ id s, c.retired.find? id = some s → id ∈ c.closedStreams
  covered : ∀ p, accepted p c.trace ≤ dataReceived p c.trace
  unrefused : ¬ FlowRefused c.trace

variable {debt : ℕ → ℕ}

theorem Windows.account (hc : c.Windows debt) (hsame : SameAccount c.trace c'.trace)
    (hwindow : c'.windowSize = c.windowSize) (hstreams : c'.streams = c.streams)
    (hclosed : c'.closedStreams = c.closedStreams) (hretired : c'.retired = c.retired) :
    c'.Windows debt where
  connection := by
    rw [hwindow, hsame.granted, hsame.accepted]
    exact hc.connection
  stream := by
    simpa only [hstreams, hclosed, hsame.granted, hsame.accepted] using hc.stream
  unknown := by
    simpa only [hstreams, hclosed, hsame.granted] using hc.unknown
  retired := by
    simpa only [hclosed, hretired] using hc.retired
  covered := by
    simpa only [hsame.received, hsame.accepted] using hc.covered
  unrefused := fun h => hc.unrefused (hsame.refused h)

theorem Windows.observe (hc : c.Windows debt) (ho : isBeside o) : (c.observe o).Windows debt :=
  hc.account (.cons ho _) rfl rfl rfl rfl

theorem Windows.debt_congr {debt' : ℕ → ℕ} (hc : c.Windows debt) (hzero : debt 0 ≤ debt' 0)
    (hothers : ∀ j, j ∉ c.closedStreams → debt j ≤ debt' j) : c.Windows debt' where
  connection := hc.connection.trans (by omega)
  stream j t hj hopen ht := by
    have := hc.stream j t hj hopen ht
    have := hothers j hopen
    omega
  unknown j hj hopen ht := (hc.unknown j hj hopen ht).trans (hothers j hopen)
  retired := hc.retired
  covered := hc.covered
  unrefused := hc.unrefused

theorem Windows.replace {debt' : ℕ → ℕ} (hc : c.Windows debt)
    (hfind : c.streams.find? id = some s) (hself : s.windowSize + debt id ≤ s'.windowSize + debt' id)
    (hzero : debt 0 ≤ debt' 0) (hothers : ∀ j ≠ id, debt j ≤ debt' j) :
    (c.setStream id s').Windows debt' := by
  refine ⟨hc.connection.trans (by simp only [setStream]; omega), fun j t hj hopen ht => ?_,
    fun j hj hopen ht => ?_, hc.retired, hc.covered, hc.unrefused⟩
  · by_cases hid : j = id
    · subst hid
      cases (OrdMap.find?_insert_self _ _ _).symm.trans ht
      have := hc.stream j s hj hopen hfind
      simp only [setStream]
      omega
    · have := hc.stream j t hj hopen ((OrdMap.find?_insert_of_ne _ _ hid).symm.trans ht)
      have := hothers j hid
      simp only [setStream]
      omega
  · by_cases hid : j = id
    · subst hid
      cases (OrdMap.find?_insert_self _ _ _).symm.trans ht
    · refine le_trans ?_ (hothers j hid)
      exact hc.unknown j hj hopen ((OrdMap.find?_insert_of_ne _ _ hid).symm.trans ht)

/-- The window of a stream is the same. -/
theorem Windows.setStream (hc : c.Windows debt) (hfind : c.streams.find? id = some s)
    (hwindow : s'.windowSize = s.windowSize) : (c.setStream id s').Windows debt :=
  hc.replace hfind (by rw [hwindow]) le_rfl fun _ _ => le_rfl

theorem Windows.setHeld {debt' : ℕ → ℕ} (hc : c.Windows debt) (hheld : c.held id = some s)
    (hself : s.windowSize + debt id ≤ s'.windowSize + debt' id) (hzero : debt 0 ≤ debt' 0)
    (hothers : ∀ j ≠ id, debt j ≤ debt' j) : (c.setHeld id s').Windows debt' := by
  unfold HttpConnectionEx.setHeld
  by_cases hin : c.streams.contains id = true
  · obtain ⟨t, hfind⟩ := Option.isSome_iff_exists.mp hin
    rw [held_of_find? hfind] at hheld
    cases hheld
    rw [if_pos hin]
    exact hc.replace hfind hself hzero hothers
  · have hnone : c.streams.find? id = none := by simpa [OrdMap.contains] using hin
    -- the stream has left the map, so its window does not count any more
    have hclosed : id ∈ c.closedStreams := hc.retired id s (by simpa [held, hnone] using hheld)
    have hd : c.Windows debt' := hc.debt_congr hzero fun j hopen =>
      hothers j fun hj => hopen (hj ▸ hclosed)
    rw [if_neg hin]
    refine ⟨hd.connection, hd.stream, hd.unknown, fun j u hu => ?_, hd.covered, hd.unrefused⟩
    by_cases hid : j = id
    · rw [hid]
      exact hclosed
    · exact hc.retired j u ((OrdMap.find?_insert_of_ne _ _ hid).symm.trans hu)

theorem Windows.setHeld_same (hc : c.Windows debt) (hheld : c.held id = some s)
    (hwindow : s'.windowSize = s.windowSize) : (c.setHeld id s').Windows debt :=
  hc.setHeld hheld (by rw [hwindow]) le_rfl fun _ _ => le_rfl

theorem Windows.retire (hc : c.Windows debt) (id : ℕ) (s : HttpStream) :
    (c.retire id s).Windows debt := by
  have hne : ∀ {j}, j ∉ (c.retire id s).closedStreams → j ≠ id ∧ j ∉ c.closedStreams := by
    intro j hj
    simpa [HttpConnectionEx.retire] using hj
  refine ⟨hc.connection, fun j t hj hopen ht => ?_, fun j hj hopen ht => ?_, fun j t ht => ?_,
    hc.covered, hc.unrefused⟩
  · refine hc.stream j t hj (hne hopen).2 ?_
    exact (OrdMap.find?_erase_of_ne _ (hne hopen).1).symm.trans ht
  · refine hc.unknown j hj (hne hopen).2 ?_
    exact (OrdMap.find?_erase_of_ne _ (hne hopen).1).symm.trans ht
  · by_cases hid : j = id
    · exact Finset.mem_insert.mpr (.inl hid)
    · refine Finset.mem_insert_of_mem (hc.retired j t ?_)
      exact (OrdMap.find?_insert_of_ne _ _ hid).symm.trans ht

theorem Windows.openStream (hc : c.Windows debt) (hnew : c.streams.find? id = none) :
    (c.openStream id).Windows debt := by
  have hd : (c.observe (.opened id c.endpointInitWindowSize)).Windows debt := hc.observe rfl
  refine ⟨hd.connection, fun j t hj hopen ht => ?_, fun j hj hopen ht => ?_, hd.retired,
    hd.covered, hd.unrefused⟩
  · by_cases hid : j = id
    · subst hid
      have := hd.unknown j hj hopen hnew
      change granted j (c.observe (.opened j c.endpointInitWindowSize)).trace ≤ _
      omega
    · exact hd.stream j t hj hopen ((OrdMap.find?_insert_of_ne _ _ hid).symm.trans ht)
  · by_cases hid : j = id
    · subst hid
      cases (OrdMap.find?_insert_self _ _ _).symm.trans ht
    · exact hd.unknown j hj hopen ((OrdMap.find?_insert_of_ne _ _ hid).symm.trans ht)

theorem SentFrame.isBeside {n : ℕ} {f : Http2Frame} (h : SentFrame id n f) :
    isBeside (.put f) := by
  rcases h.2 with htype | ⟨htype, -⟩ <;> simp [HttpConnectionEx.isBeside, htype] <;> decide

theorem Windows.handleWrite (h : c.handleWrite = .ok c') (hc : c.Windows debt) :
    c'.Windows debt := by
  refine handleWrite_invariant (P := Windows debt) ?_ ?_ ?_ ?_ ?_ ?_ h hc
  · exact fun _ hd _ => hd.account (.cons rfl _) rfl rfl rfl rfl
  · exact fun _ hd => hd.observe rfl
  · exact fun _ _ _ _ hd _ hf => hd.account (.cons hf.isBeside _) rfl rfl rfl rfl
  · exact fun _ _ _ _ hd hfind _ hsent => hd.setStream hfind hsent.windowSize
  · exact fun _ id _ s' hd _ _ _ => hd.retire id s'
  · intro d hd _
    unfold flush
    split_ifs
    · exact hd
    · exact ⟨hd.connection, hd.stream, hd.unknown, hd.retired, hd.covered, hd.unrefused⟩

theorem Windows.pushed {f : Http2Frame} (hf : f.type ≠ frameTypeWindowUpdate)
    (h : (c.push f).handleWrite = .ok c') (hc : c.Windows debt) : c'.Windows debt := by
  refine Windows.handleWrite h (hc.account (.cons ?_ _) rfl rfl rfl rfl)
  simpa [isBeside] using hf

/-- A frame as long as the window update is sent, and is then owed. -/
theorem Windows.grant {n : ℕ} (hn : n < 2 ^ 32) (hc : c.Windows 0) (id : ℕ) :
    (c.push (windowUpdateFrame id n)).Windows (Pi.single id n) := by
  have hgranted : ∀ j, granted j (c.push (windowUpdateFrame id n)).trace ≤
      (Pi.single id n : ℕ → ℕ) j + granted j c.trace := by
    intro j
    have hpayload : fromBigEndian (windowUpdateFrame id n).payload = n :=
      fromBigEndian_toBigEndian32 hn
    by_cases hj : j = id
    · subst hj
      have htype : (windowUpdateFrame j n).type = frameTypeWindowUpdate := rfl
      have hident : (windowUpdateFrame j n).ident = j := rfl
      simp [granted, push, htype, hident, hpayload]
    · have hj' : (windowUpdateFrame id n).ident ≠ j := fun h => hj h.symm
      simp [granted, push, hj']
  refine ⟨?_, fun j t hj hopen ht => ?_, fun j hj hopen ht => ?_, hc.retired, hc.covered, ?_⟩
  · have := hc.connection
    have := hgranted 0
    change 65535 + granted 0 (c.push (windowUpdateFrame id n)).trace ≤
      c.windowSize + accepted (fun _ => true) c.trace + (Pi.single id n : ℕ → ℕ) 0
    simp only [Pi.zero_apply] at *
    omega
  · have := hc.stream j t hj hopen ht
    have := hgranted j
    change granted j (c.push (windowUpdateFrame id n)).trace ≤
      t.windowSize + accepted (· = j) c.trace + (Pi.single id n : ℕ → ℕ) j
    simp only [Pi.zero_apply] at *
    omega
  · have := hc.unknown j hj hopen ht
    have := hgranted j
    simp only [Pi.zero_apply] at *
    omega
  · exact fun h => hc.unrefused (h.of_cons fun _ h => by cases h)

theorem acceptData_eq (c : HttpConnectionEx) (f : Http2FrameInfo) (s : HttpStream) :
    c.acceptData f s =
      { c.setHeld f.ident { s with continueType := f.type, windowSize := s.windowSize - f.length }
        with
        windowSize := c.windowSize - f.length
        trace := .accepted f.ident f.length :: c.trace } := by
  unfold acceptData HttpConnectionEx.setHeld observe
  by_cases hin : c.streams.contains f.ident = true
  · rw [if_pos hin, if_pos hin]
    rfl
  · rw [if_neg hin, if_neg hin]

theorem setHeld_closedStreams : (c.setHeld id s).closedStreams = c.closedStreams := by
  unfold HttpConnectionEx.setHeld
  split_ifs <;> rfl

theorem find?_eq_none_of_setHeld {j : ℕ} (h : (c.setHeld id s).streams.find? j = none) :
    c.streams.find? j = none := by
  unfold HttpConnectionEx.setHeld at h
  split_ifs at h
  · by_cases hj : j = id
    · subst hj
      cases (OrdMap.find?_insert_self _ _ _).symm.trans h
    · exact (OrdMap.find?_insert_of_ne _ _ hj).symm.trans h
  · exact h

/-- DATA is taken off both windows; `hroom` is the part of it that had not been
accepted. -/
theorem Windows.acceptData {f : Http2FrameInfo} (hc : c.Windows 0)
    (hheld : c.held f.ident = some s) (hconn : f.length ≤ c.windowSize)
    (hstream : f.length ≤ s.windowSize)
    (hroom : ∀ p, (if p f.ident then f.length else 0) + accepted p c.trace ≤
      dataReceived p c.trace) : (c.acceptData f s).Windows 0 := by
  have hd : (c.setHeld f.ident { s with
      continueType := f.type, windowSize := s.windowSize - f.length }).Windows
      (Pi.single f.ident f.length) := by
    refine hc.setHeld hheld ?_ ?_ ?_
    · simp only [Pi.zero_apply, Pi.single_eq_same]
      omega
    · simp
    · simp
  have htrace : ∀ t, (c.setHeld f.ident t).trace = c.trace := fun _ => setHeld_trace
  have haccepted : ∀ p, accepted p (.accepted f.ident f.length :: c.trace) =
      (if p f.ident then f.length else 0) + accepted p c.trace := fun _ => rfl
  rw [acceptData_eq]
  refine ⟨?_, fun j t hj hopen ht => ?_, fun j hj hopen ht => ?_, hd.retired, hroom, ?_⟩
  · have hle := hc.connection
    change 65535 + granted 0 c.trace ≤ c.windowSize - f.length + accepted _ (_ :: c.trace) + 0
    rw [haccepted, if_pos rfl]
    simp only [Pi.zero_apply] at hle
    omega
  · have hle := hd.stream j t hj hopen ht
    change granted j c.trace ≤ t.windowSize + accepted _ (_ :: c.trace) + 0
    rw [haccepted]
    rw [htrace] at hle
    by_cases hid : f.ident = j
    · rw [hid, Pi.single_eq_same] at hle
      simp only [hid, decide_true, if_true]
      omega
    · rw [Pi.single_eq_of_ne (Ne.symm hid)] at hle
      omega
  · rw [setHeld_closedStreams] at hopen
    exact hc.unknown j hj hopen (find?_eq_none_of_setHeld ht)
  · exact fun h => hc.unrefused (h.of_cons fun _ h => by cases h)

/-- DATA fits into the windows, as they were when it arrived. -/
def Fits (c₀ : HttpConnectionEx) : Prop :=
  c₀.checksWindows → ∀ s, c₀.streams.find? c₀.frame.ident = some s →
    c₀.frame.length ≤ c₀.windowSize ∧ c₀.frame.length ≤ s.windowSize

def Pending (c₀ : HttpConnectionEx) : Prop :=
  c₀.frame.type = frameTypeData → ∀ p,
    (if p c₀.frame.ident then c₀.frame.length else 0) + accepted p c₀.trace ≤
      dataReceived p c₀.trace

theorem dataReceived_mono (p : ℕ → Bool) {t t' : List Obs} (h : t <:+ t') :
    dataReceived p t ≤ dataReceived p t' := by
  obtain ⟨u, rfl⟩ := h
  induction u with
  | nil => exact le_rfl
  | cons o u ih =>
    cases o with
    | recv f => exact ih.trans (Nat.le_add_left _ _)
    | _ => exact ih

theorem Windows.action (hfits : c₀.Fits) (hpending : c₀.Pending)
    (hsuffix : c₀.trace <:+ c.trace) (h : Action env c₀ c c') (hc : c.Windows 0) :
    c'.Windows 0 := by
  have hheaders : isHeaders c₀.frame → c₀.frame.type ≠ frameTypeData := by
    intro htype hdata
    simp [isHeaders, hdata, frameTypeData, frameTypeHeaders, frameTypeContinuation] at htype
  cases h with
  | write h => exact hc.handleWrite h
  | control f _ hupdate =>
    exact hc.account (.cons (by simpa [isBeside] using hupdate) _) rfl rfl rfl rfl
  | goaway code h =>
    refine hc.observe ?_
    simpa [isBeside, imp_iff_not_or] using h
  | exceeded hcheck hfind h =>
    have := hfits hcheck _ hfind
    omega
  | @once code f h =>
    have hdata : c₀.frame.type ≠ frameTypeData := by
      intro htype
      simp [answersOnce, htype, frameTypeData, frameTypePing, frameTypeHeaders] at h
    exact hc.account (.append [.alone f, .goaway c₀.frame code] (by simp [isBeside, hdata]) _)
      rfl rfl rfl rfl
  | read => exact hc.account (.cons rfl _) rfl rfl rfl rfl
  | opened h => exact hc.openStream (find?_eq_none_of_opens h)
  | latest | acked =>
    exact ⟨hc.connection, hc.stream, hc.unknown, hc.retired, hc.covered, hc.unrefused⟩
  | touch hfind => exact hc.setStream hfind rfl
  | touchHeld hheld | body hheld => exact hc.setHeld_same hheld rfl
  | fragment _ _ hfind _ hphase => exact (hc.observe rfl).setStream hfind hphase.windowSize
  | undecodable _ _ _ _ htype _ hfind _ hphase =>
    refine (hc.setStream hfind hphase.windowSize).account
      (.append [.goaway _ _, .decoded _ _ _, .fragment _ _] ?_ _) rfl rfl rfl rfl
    simp [isBeside, hheaders htype]
  | unconvertible _ _ _ htype _ hfind _ hphase =>
    refine (hc.setStream hfind hphase.windowSize).account
      (.append [.goaway _ _, .converted _ _, .decoded _ _ _, .fragment _ _] ?_ _) rfl rfl rfl rfl
    simp [isBeside, hheaders htype]
  | completed _ _ _ _ _ hfind _ hphase =>
    refine (hc.setStream hfind hphase.windowSize).account
      (.append [.converted _ _, .decoded _ _ _, .fragment _ _] ?_ _) rfl rfl rfl rfl
    simp [isBeside]
  | answered _ _ _ _ _ _ hfind _ hphase =>
    refine (hc.setStream hfind hphase.windowSize).account
      (.append [.request _, .converted _ _, .decoded _ _ _, .fragment _ _] ?_ _) rfl rfl rfl rfl
    simp [isBeside]
  | accept htype hfirst hheld hconn hstream =>
    refine hc.acceptData hheld hconn hstream fun p => ?_
    rw [hfirst]
    exact (hpending htype p).trans (dataReceived_mono p hsuffix)
  | replenish h =>
    have hd := Windows.handleWrite h (hc.grant (by decide) 0)
    refine ⟨?_, fun j t hj hopen ht => ?_, fun j hj hopen ht => ?_, hd.retired, hd.covered,
      hd.unrefused⟩
    · have hle := hd.connection
      rw [Pi.single_eq_same] at hle
      dsimp only [Pi.zero_apply]
      omega
    · simpa [Pi.single_eq_of_ne hj] using hd.stream j t hj hopen ht
    · simpa [Pi.single_eq_of_ne hj] using hd.unknown j hj hopen ht
  | @replenishStream _ _ s h hheld hident =>
    have hd := Windows.handleWrite h (hc.grant (by decide) c₀.frame.ident)
    refine hd.setHeld hheld ?_ ?_ fun j hj => ?_
    · rw [Pi.single_eq_same]
      rfl
    · rw [Pi.single_eq_of_ne hident.symm, Pi.zero_apply]
    · rw [Pi.single_eq_of_ne hj, Pi.zero_apply]
  | respond _ hheld hphase =>
    refine Windows.setHeld_same ?_ hheld hphase.windowSize
    exact hc.account (.cons (o := .request c₀.frame.ident) rfl _) rfl rfl rfl rfl
  | credit => exact hc.account (.cons rfl _) rfl rfl rfl rfl
  | creditStream _ _ hfind =>
    refine Windows.observe ?_ rfl
    exact hc.setStream hfind rfl
  | setting _ _ h =>
    obtain ⟨_, _, _, _, _, _, _, _, _, rfl, -⟩ := applySetting_eq h
    exact ⟨hc.connection, hc.stream, hc.unknown, hc.retired, hc.covered, hc.unrefused⟩
  | @reset _ s data hfind =>
    have hd := hc.retire c₀.frame.ident s
    exact ⟨hd.connection, hd.stream, hd.unknown, hd.retired, hd.covered, hd.unrefused⟩

section Arrival

variable (hc : c.Windows 0) (htrace : c₀.trace = .recv c.frame :: c.trace)

include hc htrace

theorem Windows.covered_of_recv (p : ℕ → Bool) : accepted p c₀.trace ≤ dataReceived p c₀.trace := by
  rw [htrace]
  exact (hc.covered p).trans (Nat.le_add_left _ _)

theorem Windows.arrived (hwindow : c₀.windowSize = c.windowSize)
    (hstreams : c₀.streams = c.streams) (hclosed : c₀.closedStreams = c.closedStreams)
    (hretired : c₀.retired = c.retired) : c₀.Windows 0 where
  connection := by
    rw [htrace, hwindow]
    exact hc.connection
  stream := by
    rw [htrace, hstreams, hclosed]
    exact hc.stream
  unknown := by
    rw [htrace, hstreams, hclosed]
    exact hc.unknown
  retired := by
    rw [hretired, hclosed]
    exact hc.retired
  covered := hc.covered_of_recv htrace
  unrefused := by
    rw [htrace]
    exact fun h => hc.unrefused (h.of_cons fun _ h => by cases h)

theorem Windows.pending (hframe : c₀.frame = c.frame) : c₀.Pending := by
  intro htype p
  rw [hframe] at htype ⊢
  have hle := hc.covered p
  rw [htrace]
  simp only [dataReceived, htype, true_and, accepted]
  omega

end Arrival

/-- A client that stays within what was granted stays within the windows. -/
theorem Windows.fits (hc : c.Windows 0) (hpending : c.Pending)
    (hconf : c.checksWindows → c.Conforms 0) : c.Fits := by
  intro hcheck s hfind
  obtain ⟨htype, hident, hopen⟩ := checksWindows_spec hcheck
  obtain ⟨hstream, hconn⟩ := hconf hcheck htype
  have hroom := hpending htype (· = c.frame.ident)
  have hroom' := hpending htype fun _ => true
  have hle := hc.connection
  have hle' := hc.stream _ s hident hopen hfind
  simp only [decide_true, if_true, Pi.zero_apply] at *
  omega

/-- In every run of a client that, whenever its DATA comes to the check of the windows,
has sent no more on the stream than the server has granted by WINDOW_UPDATE frames, and
on the connection no more than 65535 octets beyond that, DATA is never answered with a
flow control error. -/
theorem data_never_flowRefused {es : List (Env × Event)}
    (hrun : RunWhere step (onFrame fun c₀ => c₀.checksWindows → c₀.Conforms 0) start es c) :
    ¬ FlowRefused c.trace := by
  have hstart : start.Windows 0 := by
    refine ⟨le_rfl, ?_, ?_, ?_, fun _ => le_rfl, ?_⟩
    · intro id s _ _ h
      cases h
    · exact fun _ _ _ _ => le_rfl
    · intro id s h
      cases h
    · rintro ⟨f, hf, -⟩
      simp [start, readMagic, readBlock] at hf
  refine (run_invariant (Windows 0) hstart ?_ hrun).unrefused
  intro c env e c' hc hok h
  cases h with
  | more | header => exact hc.account (.cons rfl _) rfl rfl rfl rfl
  | stranger | readFailed | lastWritten | writeFailed =>
    exact ⟨hc.connection, hc.stream, hc.unknown, hc.retired, hc.covered, hc.unrefused⟩
  | greeted _ hf h =>
    refine Windows.pushed (by rw [hf]; decide) h ?_
    exact ⟨hc.connection, hc.stream, hc.unknown, hc.retired, hc.covered, hc.unrefused⟩
  | tooLong =>
    refine hc.account (.append [.alone _, .goaway _ _] ?_ _) rfl rfl rfl rfl
    simp [isBeside, goawayProtocolError, goawayFlowControlError]
  | written _ h =>
    refine Windows.handleWrite h ?_
    exact ⟨hc.connection, hc.stream, hc.unknown, hc.retired, hc.covered, hc.unrefused⟩
  | @frame _ _ _ c₀ _ _ hc₀ hdel hacts =>
    have hd : c₀.Windows 0 := by
      rw [hc₀]
      exact hc.arrived rfl rfl rfl rfl rfl
    have hpending : c₀.Pending := by
      rw [hc₀]
      exact hc.pending rfl rfl
    have hfits := hd.fits hpending (hok _ hdel)
    exact hacts.invariant_of_suffix
      (fun _ _ hsuffix hact hd => hd.action hfits hpending hsuffix hact) hd

/-- Empty DATA, for which the server grants 65535 octets, and then one octet. Two
reads are outstanding by then. -/
theorem data_never_flowRefused_octet : ∃ c : HttpConnectionEx,
    accepted (· = 1) c.trace = 1 ∧ ¬ FlowRefused c.trace := by
  obtain ⟨c, hrun, hc⟩ := exists_run_of_any step
    (onFrame fun c₀ => c₀.checksWindows → c₀.Conforms 0) start
    (openRequest ++ incoming (servletService []) frameTypeData 0 1 [] ++
      [(servletService [], .read 0 [0, 0, 1, 0, 0, 0, 0, 0, 1]), (servletService [], .read 1 [7])])
    (fun c => accepted (· = 1) c.trace = 1) (by decide +kernel)
  exact ⟨c, by simpa using hc, data_never_flowRefused hrun⟩

/-- The body of a request, one octet, as the first DATA of the connection. -/
def firstOctetRun : List (Env × Event) :=
  openRequest ++ incoming (servletService []) frameTypeData 1 1 [7]

/-- The client keeps to the 65535 octets that were advertised for the stream. -/
theorem firstOctetRun_flowRefused :
    ∃ c, RunWhere step (onFrame (Conforms localInitWindowSize)) start firstOctetRun c ∧
      FlowRefused c.trace := by
  obtain ⟨c, hrun, hc⟩ := exists_run_of_any step (onFrame (Conforms localInitWindowSize)) start
    firstOctetRun (fun c => Obs.goaway ⟨1, frameTypeData, 1, 1⟩ goawayFlowControlError ∈ c.trace)
    (by decide +kernel)
  exact ⟨c, hrun, _, by simpa using hc, rfl⟩

end HttpConnectionEx
end Sese.Service.Http
