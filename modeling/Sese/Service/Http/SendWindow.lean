import Sese.Service.Http.Transitions

/-!
# The send windows

`endpoint_window_size`, of the connection and of every stream, is raised by
WINDOW_UPDATE frames and never reduced by the DATA that is sent: each write round
may use the whole window again. A run stays within the credit of the peer as long
as every round finds a window, the size of a frame or the octets that are left
within the credit that is not spent.
-/
namespace Sese.Service.Http

open Foundation Sese.Net.Http

namespace HttpConnectionEx

variable {env : Env} {c₀ c c' : HttpConnectionEx} {id : ℕ} {o : Obs} {t u : List Obs}

/-- The DATA that was queued for the streams in `p`. -/
def dataSent (p : ℕ → Bool) : List Obs → ℕ
  | [] => 0
  | .put f :: t => (if f.type = frameTypeData ∧ p f.ident then f.length else 0) + dataSent p t
  | _ :: t => dataSent p t

/-- The increments that were accepted for `id`. -/
def credited (id : ℕ) : List Obs → ℕ
  | [] => 0
  | .credit j i :: t => (if j = id then i else 0) + credited id t
  | _ :: t => credited id t

/-- The endpoint window with which a stream was first created. -/
def initialWindow (id : ℕ) : List Obs → Option ℕ
  | [] => none
  | .opened j window :: t => (initialWindow id t).or (if j = id then some window else none)
  | _ :: t => initialWindow id t

/-- All that the peer has allowed the server to send on a stream. -/
def streamCredit (id : ℕ) (t : List Obs) : ℕ := (initialWindow id t).getD 0 + credited id t

/-- All that the peer has allowed the server to send on the connection. -/
def connectionCredit (t : List Obs) : ℕ := 65535 + credited 0 t

structure WithinCredit (t : List Obs) : Prop where
  stream : ∀ id, dataSent (· = id) t ≤ streamCredit id t
  connection : dataSent (fun _ => true) t ≤ connectionCredit t

/-- What limits the DATA of a stream in a round. -/
def limits : List (DataTurn → ℕ) :=
  [DataTurn.connectionWindow, DataTurn.streamWindow, DataTurn.frameSize, DataTurn.bytesLeft]

/-- Each stream has a limit within the credit that it has not spent, and one of the
limits, over all the streams of the round, is within the unspent credit of the
connection. -/
def affordable (turns : List DataTurn) (t : List Obs) : Bool :=
  turns.all (fun turn => limits.any fun limit =>
      limit turn ≤ streamCredit turn.id t - dataSent (· = turn.id) t) &&
    limits.any fun limit =>
      (turns.map limit).sum ≤ connectionCredit t - dataSent (fun _ => true) t

def roundsAffordable : List Obs → Bool
  | [] => true
  | .round turns :: t => affordable turns t && roundsAffordable t
  | _ :: t => roundsAffordable t

/-- Observations that are neither DATA nor the beginning of a round. -/
def isQuiet : Obs → Bool
  | .put f => f.type ≠ frameTypeData
  | .round _ => false
  | _ => true

theorem credited_le_cons (id : ℕ) (o : Obs) (t : List Obs) : credited id t ≤ credited id (o :: t) := by
  cases o with
  | credit j i => exact Nat.le_add_left _ _
  | _ => exact le_rfl

theorem initialWindow_le_cons (id : ℕ) (o : Obs) (t : List Obs) :
    (initialWindow id t).getD 0 ≤ (initialWindow id (o :: t)).getD 0 := by
  cases o with
  | opened j window =>
    cases h : initialWindow id t with
    | none => exact Nat.zero_le _
    | some w => simp [initialWindow, h]
  | _ => exact le_rfl

theorem dataSent_cons_of_isQuiet (ho : isQuiet o) (p : ℕ → Bool) :
    dataSent p (o :: t) = dataSent p t := by
  cases o with
  | put f =>
    have hf : f.type ≠ frameTypeData := by simpa [isQuiet] using ho
    simp [dataSent, hf]
  | _ => rfl

theorem WithinCredit.cons (ho : isQuiet o) (h : WithinCredit t) : WithinCredit (o :: t) := by
  constructor
  · intro id
    rw [dataSent_cons_of_isQuiet ho]
    exact (h.stream id).trans
      (Nat.add_le_add (initialWindow_le_cons id o t) (credited_le_cons id o t))
  · rw [dataSent_cons_of_isQuiet ho]
    exact h.connection.trans (Nat.add_le_add_left (credited_le_cons 0 o t) _)

/-- The run has stayed within its credit if its rounds were affordable. -/
def Accounted (t : List Obs) : Prop := roundsAffordable t → WithinCredit t

theorem Accounted.append (hu : ∀ o ∈ u, isQuiet o) (h : Accounted t) : Accounted (u ++ t) := by
  induction u with
  | nil => exact h
  | cons o u ih =>
    have ho := hu o List.mem_cons_self
    have hrest := ih fun o ho => hu o (List.mem_cons_of_mem _ ho)
    intro hafford
    apply WithinCredit.cons ho
    apply hrest
    cases o with
    | round => cases ho
    | _ => exact hafford

/-- The smallest of the limits. -/
def mostData (turn : DataTurn) : ℕ :=
  min (min (min turn.connectionWindow turn.streamWindow) turn.frameSize) turn.bytesLeft

theorem mostData_le {limit : DataTurn → ℕ} (h : limit ∈ limits) (turn : DataTurn) :
    mostData turn ≤ limit turn := by
  simp only [limits, List.mem_cons, List.not_mem_nil, or_false] at h
  rcases h with rfl | rfl | rfl | rfl <;> simp [mostData]

/-- What a round may send for the streams in `p`. -/
def demanded (p : ℕ → Bool) : List DataTurn → ℕ
  | [] => 0
  | turn :: l => (if p turn.id then mostData turn else 0) + demanded p l

theorem demanded_le {limit : DataTurn → ℕ} (h : limit ∈ limits) (p : ℕ → Bool)
    (l : List DataTurn) : demanded p l ≤ (l.map limit).sum := by
  induction l with
  | nil => exact le_rfl
  | cons turn l ih =>
    have hmost := mostData_le h turn
    simp only [demanded, List.map_cons, List.sum_cons]
    split_ifs <;> omega

theorem demanded_of_forall_ne {l : List DataTurn} (h : ∀ turn ∈ l, turn.id ≠ id) :
    demanded (· = id) l = 0 := by
  induction l with
  | nil => rfl
  | cons turn l ih =>
    have hturn := h turn List.mem_cons_self
    simp [demanded, hturn, ih fun turn hmem => h turn (List.mem_cons_of_mem _ hmem)]

theorem demanded_of_mem {l : List DataTurn} (hl : l.Pairwise fun a b => a.id < b.id)
    {turn : DataTurn} (hturn : turn ∈ l) : demanded (· = turn.id) l = mostData turn := by
  induction l with
  | nil => cases hturn
  | cons first l ih =>
    obtain ⟨hfirst, hrest⟩ := List.pairwise_cons.mp hl
    rcases List.mem_cons.mp hturn with rfl | hturn
    · simp [demanded, demanded_of_forall_ne fun d hd => (hfirst d hd).ne']
    · have hne : first.id ≠ turn.id := (hfirst turn hturn).ne
      simp [demanded, hne, ih hrest hturn]

theorem demanded_dataTurns_cons (p : ℕ → Bool) (s : HttpStream) (l : List (ℕ × HttpStream)) :
    demanded p (c.dataTurns ((id, s) :: l)) =
      (if p id then c.demand s else 0) + demanded p (c.dataTurns l) := by
  by_cases hsends : (s.doResponse && s.tempBuffer.isEmpty) = true
  · have hmost : min (min (min c.endpointWindowSize s.endpointWindowSize) c.maxFrameSize)
        (bytesLeft s) = c.demand s := by
      rw [demand, if_pos hsends, remind]
    simp only [dataTurns, List.filter_cons, hsends, if_true, List.map_cons, demanded, mostData]
    rw [hmost]
  · simp [dataTurns, hsends, demand]

def isPut : Obs → Bool
  | .put _ => true
  | _ => false

theorem dataSent_append (p : ℕ → Bool) (u t : List Obs) :
    dataSent p (u ++ t) = dataSent p u + dataSent p t := by
  induction u with
  | nil => simp [dataSent]
  | cons o u ih =>
    cases o with
    | put f => simp [dataSent, ih, Nat.add_assoc]
    | _ => exact ih

theorem append_of_isPut (hu : ∀ o ∈ u, isPut o) (t : List Obs) :
    (∀ id, streamCredit id (u ++ t) = streamCredit id t) ∧
      connectionCredit (u ++ t) = connectionCredit t ∧
      roundsAffordable (u ++ t) = roundsAffordable t := by
  induction u with
  | nil => exact ⟨fun _ => rfl, rfl, rfl⟩
  | cons o u ih =>
    have ho := hu o List.mem_cons_self
    have hrest := ih fun o ho => hu o (List.mem_cons_of_mem _ ho)
    cases o with
    | put f => exact hrest
    | _ => cases ho

theorem applyWritten_trace {s : HttpStream} {w : Written} (h : c.writeStream id s = .ok w) :
    ∃ u, (c.applyWritten id w).trace = u ++ c.trace ∧ (∀ o ∈ u, isPut o) ∧
      ∀ p, dataSent p u ≤ if p id then c.demand s else 0 := by
  obtain ⟨-, hframe⟩ := writeStream_turn h
  have htrace : (c.applyWritten id w).trace = (c.pushSent w.frame).trace := by
    unfold applyWritten
    split_ifs <;> rfl
  rw [htrace]
  cases hw : w.frame with
  | none => exact ⟨[], rfl, by simp, fun p => Nat.zero_le _⟩
  | some f =>
    refine ⟨[.put f], rfl, by simp [isPut], fun p => ?_⟩
    obtain ⟨hident, htype⟩ := hframe f hw
    rcases htype with htype | ⟨htype, hlen⟩
    · simp [dataSent, htype, frameTypeHeaders, frameTypeData]
    · simp only [dataSent, htype, hident, true_and, add_zero]
      split_ifs
      · exact hlen
      · exact le_rfl

theorem applyWritten_dataTurns (id : ℕ) (w : Written) (l : List (ℕ × HttpStream)) :
    (c.applyWritten id w).dataTurns l = c.dataTurns l := by
  unfold applyWritten
  split_ifs <;> cases w.frame <;> rfl

/-- The loop of a round sends no more than the round has counted. -/
theorem writeLoop_trace {l : List (ℕ × HttpStream)} (h : writeLoop l c = .ok c') :
    ∃ u, c'.trace = u ++ c.trace ∧ (∀ o ∈ u, isPut o) ∧
      ∀ p, dataSent p u ≤ demanded p (c.dataTurns l) := by
  induction l generalizing c with
  | nil =>
    cases h
    exact ⟨[], rfl, by simp, fun p => le_rfl⟩
  | cons e l ih =>
    obtain ⟨id, s⟩ := e
    obtain ⟨w, hwrite, h⟩ := bind_eq_ok.mp h
    obtain ⟨u, hu, hput, hsent⟩ := applyWritten_trace hwrite
    obtain ⟨v, hv, hput', hsent'⟩ := ih h
    refine ⟨v ++ u, by rw [hv, hu, List.append_assoc], ?_, fun p => ?_⟩
    · intro o ho
      rcases List.mem_append.mp ho with ho | ho
      · exact hput' o ho
      · exact hput o ho
    · have hle := hsent p
      have hle' := hsent' p
      rw [applyWritten_dataTurns] at hle'
      rw [dataSent_append, demanded_dataTurns_cons]
      omega

/-- A round that was affordable is paid for. -/
theorem Accounted.round {turns : List DataTurn} (hsorted : turns.Pairwise fun a b => a.id < b.id)
    (hput : ∀ o ∈ u, isPut o) (hsent : ∀ p, dataSent p u ≤ demanded p turns)
    (h : Accounted t) : Accounted (u ++ .round turns :: t) := by
  intro hafford
  obtain ⟨hstream, hconn, hrounds⟩ := append_of_isPut hput (.round turns :: t)
  rw [hrounds] at hafford
  simp only [roundsAffordable, affordable, Bool.and_eq_true, List.all_eq_true, List.any_eq_true,
    decide_eq_true_eq] at hafford
  obtain ⟨⟨heach, limit, hlimit, hall⟩, hbefore⟩ := hafford
  have hwithin := h hbefore
  constructor
  · intro id
    rw [hstream, dataSent_append]
    change _ + dataSent _ t ≤ streamCredit id t
    have hle := hsent (· = id)
    have hcovered := hwithin.stream id
    by_cases hmem : ∀ turn ∈ turns, turn.id ≠ id
    · rw [demanded_of_forall_ne hmem] at hle
      omega
    · simp only [not_forall, not_not] at hmem
      obtain ⟨turn, hturn, rfl⟩ := hmem
      obtain ⟨limit, hlimit, hunspent⟩ := heach turn hturn
      have hmost := mostData_le hlimit turn
      rw [demanded_of_mem hsorted hturn] at hle
      omega
  · rw [hconn, dataSent_append]
    change _ + dataSent _ t ≤ connectionCredit t
    have hle := hsent fun _ => true
    have hsum := demanded_le hlimit (fun _ => true) turns
    have hcovered := hwithin.connection
    omega

theorem dataTurns_sorted (c : HttpConnectionEx) :
    (c.dataTurns c.streams.entries).Pairwise fun a b => a.id < b.id := by
  unfold dataTurns
  rw [List.pairwise_map]
  exact c.streams.sorted.filter _

theorem Accounted.handleWrite (h : c.handleWrite = .ok c') (hc : Accounted c.trace) :
    Accounted c'.trace := by
  obtain ⟨d, hstart, hround⟩ := handleWrite_eq_ok h
  have hd : Accounted d.trace := by
    rcases hstart with rfl | ⟨-, rfl⟩
    · exact hc
    · exact hc.append (u := [.readBlock 9]) (by simp [isQuiet])
  rcases hround with ⟨-, rfl⟩ | ⟨-, d', hloop, rfl⟩
  · exact hd
  · have hflush : d'.flush.trace = d'.trace := by
      unfold flush
      split_ifs <;> rfl
    obtain ⟨u, hu, hput, hsent⟩ := writeLoop_trace hloop
    rw [hflush, hu]
    exact hd.round d.dataTurns_sorted hput hsent

theorem Accounted.pushed {f : Http2Frame} (hf : f.type ≠ frameTypeData)
    (h : (c.push f).handleWrite = .ok c') (hc : Accounted c.trace) : Accounted c'.trace := by
  apply Accounted.handleWrite h
  exact hc.append (u := [.put f]) (by simpa [isQuiet] using hf)

theorem Accounted.action (h : Action env c₀ c c') (hc : Accounted c.trace) :
    Accounted c'.trace := by
  cases h with
  | write h => exact hc.handleWrite h
  | control f hdata => exact hc.append (u := [.put f]) (by simpa [isQuiet] using hdata)
  | goaway | exceeded | read | opened | fragment | credit | creditStream =>
    exact hc.append (u := [_]) (by simp [isQuiet])
  | once => exact hc.append (u := [_, _]) (by simp [isQuiet])
  | latest | touch | acked | reset => exact hc
  | touchHeld | body =>
    rw [setHeld_trace]
    exact hc
  | undecodable | completed => exact hc.append (u := [_, _, _]) (by simp [isQuiet])
  | unconvertible | answered => exact hc.append (u := [_, _, _, _]) (by simp [isQuiet])
  | accept | respond =>
    simp only [acceptData, setHeld_trace]
    exact hc.append (u := [_]) (by simp [isQuiet])
  | replenish h =>
    have hd := Accounted.pushed (show frameTypeWindowUpdate ≠ frameTypeData by decide) h hc
    exact hd
  | replenishStream h =>
    rw [setHeld_trace]
    exact Accounted.pushed (show frameTypeWindowUpdate ≠ frameTypeData by decide) h hc
  | setting _ _ h =>
    obtain ⟨_, _, _, _, _, _, _, _, _, rfl, -⟩ := applySetting_eq h
    exact hc

/-- In every run whose write rounds were all affordable, the DATA queued for a
stream is within its initial window and the increments accepted for it, and all
DATA within 65535 octets and the increments accepted for the connection. -/
theorem dataSent_withinCredit {es : List (Env × Event)}
    (hrun : RunWhere step Unrestricted start es c) (hafford : roundsAffordable c.trace) :
    (∀ id, dataSent (· = id) c.trace ≤ streamCredit id c.trace) ∧
      dataSent (fun _ => true) c.trace ≤ 65535 + credited 0 c.trace := by
  have hc : Accounted c.trace := by
    refine run_invariant (fun c => Accounted c.trace) ?_ ?_ hrun
    · exact fun _ => ⟨fun _ => Nat.zero_le _, Nat.zero_le _⟩
    intro c env e c' hc _ h
    cases h with
    | more | header => exact hc.append (u := [_]) (by simp [isQuiet])
    | tooLong => exact hc.append (u := [_, _]) (by simp [isQuiet])
    | stranger | readFailed | lastWritten | writeFailed => exact hc
    | greeted _ hf h => exact Accounted.pushed (by rw [hf]; decide) h hc
    | written _ h => exact Accounted.handleWrite h hc
    | frame _ hc₀ _ hacts =>
      subst hc₀
      refine hacts.invariant (P := fun c => Accounted c.trace) ?_ ?_
      · exact fun _ _ hact hd => hd.action hact
      · exact hc.append (u := [_]) (by simp [isQuiet])
  have hwithin := hc hafford
  exact ⟨hwithin.stream, hwithin.connection⟩

/-- A request on stream 1 after SETTINGS with this initial window, which is
answered with two octets. -/
def windowedRun (window : ℕ) : List (Env × Event) :=
  greeting (servletService [1, 2]) ++
    incoming (servletService [1, 2]) frameTypeSettings 0 0
      (toBigEndian16 settingsInitialWindowSize ++ toBigEndian32 window) ++
    [(servletService [1, 2], .written 0)] ++
    incoming (servletService [1, 2]) frameTypeHeaders 5 1 getRequest

theorem dataSent_withinCredit_two : ∃ c : HttpConnectionEx,
    dataSent (· = 1) c.trace = 2 ∧ streamCredit 1 c.trace = 2 ∧
      (∀ id, dataSent (· = id) c.trace ≤ streamCredit id c.trace) ∧
      dataSent (fun _ => true) c.trace ≤ 65535 + credited 0 c.trace := by
  obtain ⟨c, hrun, hc⟩ := exists_run_of_any step Unrestricted start
    (windowedRun 2 ++ [(servletService [], .written 0)])
    (fun c => dataSent (· = 1) c.trace = 2 && streamCredit 1 c.trace = 2 &&
      roundsAffordable c.trace) (by decide +kernel)
  simp only [Bool.and_eq_true, decide_eq_true_eq] at hc
  exact ⟨c, hc.1.1, hc.1.2, dataSent_withinCredit hrun hc.2⟩

/-- With a window of one octet, two write completions send both. -/
theorem windowedRun_exceeds_credit :
    ∃ c, RunWhere step Unrestricted start (windowedRun 1 ++
        [(servletService [], .written 0), (servletService [], .written 0)]) c ∧
      ¬ ∀ id, dataSent (· = id) c.trace ≤ streamCredit id c.trace := by
  obtain ⟨c, hrun, hc⟩ := exists_run_of_any step Unrestricted start (windowedRun 1 ++
      [(servletService [], .written 0), (servletService [], .written 0)])
    (fun c => streamCredit 1 c.trace < dataSent (· = 1) c.trace) (by decide +kernel)
  refine ⟨c, hrun, fun h => ?_⟩
  have hle := h 1
  simp only [decide_eq_true_eq] at hc
  omega

end HttpConnectionEx
end Sese.Service.Http
