import Sese.Service.Http.Transitions

/-!
# One request per stream

`handleRequest` is called at the end of a header block when the stream has ended,
and at the end of DATA. Neither place looks at `do_response`, which says that the
stream has been answered.
-/
namespace Sese.Service.Http

open Foundation Sese.Net.Http

namespace HttpConnectionEx

variable {env : Env} {c₀ c c' : HttpConnectionEx} {id : ℕ} {s s' : HttpStream}

/-- The streams for which `handleRequest` was called, newest first. -/
def requests : List Obs → List ℕ
  | [] => []
  | .request id :: t => id :: requests t
  | _ :: t => requests t

/-- No stream was dispatched twice, and those that were are closed or know that they
have been answered. -/
structure DispatchedOnce (c : HttpConnectionEx) : Prop where
  nodup : (requests c.trace).Nodup
  answered : ∀ id ∈ requests c.trace, id ∈ c.closedStreams ∨
    ∃ s, c.streams.find? id = some s ∧ s.doResponse = true

theorem DispatchedOnce.congr (hc : c.DispatchedOnce) (htrace : requests c'.trace = requests c.trace)
    (hstreams : c'.streams = c.streams) (hclosed : c'.closedStreams = c.closedStreams) :
    c'.DispatchedOnce := by
  constructor
  · rw [htrace]
    exact hc.nodup
  · rw [htrace, hstreams, hclosed]
    exact hc.answered

theorem DispatchedOnce.setStream (hc : c.DispatchedOnce) (hfind : c.streams.find? id = some s)
    (hresp : s.doResponse = true → s'.doResponse = true) : (c.setStream id s').DispatchedOnce := by
  constructor
  · exact hc.nodup
  intro j hj
  rcases hc.answered j hj with hclosed | ⟨r, hr, hdone⟩
  · exact .inl hclosed
  by_cases hid : j = id
  · subst hid
    cases hfind.symm.trans hr
    exact .inr ⟨s', OrdMap.find?_insert_self _ _ _, hresp hdone⟩
  · exact .inr ⟨r, (OrdMap.find?_insert_of_ne _ _ hid).trans hr, hdone⟩

theorem DispatchedOnce.setHeld (hc : c.DispatchedOnce) (hheld : c.held id = some s)
    (hresp : s.doResponse = true → s'.doResponse = true) : (c.setHeld id s').DispatchedOnce := by
  unfold HttpConnectionEx.setHeld
  split_ifs with hin
  · obtain ⟨r, hfind⟩ := Option.isSome_iff_exists.mp hin
    cases (held_of_find? hfind).symm.trans hheld
    exact hc.setStream hfind hresp
  · exact hc.congr rfl rfl rfl

theorem DispatchedOnce.retire (hc : c.DispatchedOnce) (id : ℕ) (s : HttpStream) :
    (c.retire id s).DispatchedOnce := by
  constructor
  · exact hc.nodup
  intro j hj
  by_cases hid : j = id
  · exact .inl (Finset.mem_insert.mpr (.inl hid))
  rcases hc.answered j hj with hclosed | ⟨r, hr, hdone⟩
  · exact .inl (Finset.mem_insert_of_mem hclosed)
  · exact .inr ⟨r, (OrdMap.find?_erase_of_ne _ hid).trans hr, hdone⟩

theorem DispatchedOnce.openStream (hc : c.DispatchedOnce) (hnew : c.streams.find? id = none) :
    (c.openStream id).DispatchedOnce := by
  constructor
  · exact hc.nodup
  intro j hj
  rcases hc.answered j hj with hclosed | ⟨r, hr, hdone⟩
  · exact .inl hclosed
  have hid : j ≠ id := by
    rintro rfl
    cases hnew.symm.trans hr
  exact .inr ⟨r, (OrdMap.find?_insert_of_ne _ _ hid).trans hr, hdone⟩

theorem DispatchedOnce.notMem (hc : c.DispatchedOnce) (hopen : id ∉ c.closedStreams)
    (hfind : c.streams.find? id = some s) (hidle : s.doResponse = false) :
    id ∉ requests c.trace := by
  intro hmem
  rcases hc.answered id hmem with hclosed | ⟨r, hr, hdone⟩
  · exact hopen hclosed
  · cases hfind.symm.trans hr
    rw [hidle] at hdone
    cases hdone

theorem DispatchedOnce.dispatch (hc : c.DispatchedOnce) (hnew : id ∉ requests c.trace)
    (hfind : c.streams.find? id = some s) (hresp : s'.doResponse = true)
    (htrace : requests c'.trace = id :: requests c.trace)
    (hstreams : c'.streams = c.streams.insert id s')
    (hclosed : c'.closedStreams = c.closedStreams) : c'.DispatchedOnce := by
  have hset := hc.setStream hfind fun _ => hresp
  constructor
  · rw [htrace]
    exact List.nodup_cons.mpr ⟨hnew, hc.nodup⟩
  intro j hj
  rw [htrace] at hj
  rw [hclosed, hstreams]
  rcases List.mem_cons.mp hj with rfl | hj
  · exact .inr ⟨s', OrdMap.find?_insert_self _ _ _, hresp⟩
  · exact hset.answered j hj

theorem DispatchedOnce.handleWrite (h : c.handleWrite = .ok c') (hc : c.DispatchedOnce) :
    c'.DispatchedOnce := by
  refine handleWrite_invariant (P := DispatchedOnce) ?_ ?_ ?_ ?_ ?_ ?_ h hc
  · exact fun _ hd _ => hd.congr rfl rfl rfl
  · exact fun _ hd => hd.congr rfl rfl rfl
  · exact fun _ _ _ _ hd _ _ => hd.congr rfl rfl rfl
  · intro d id s s' hd hfind _ hsent
    apply hd.setStream hfind
    rw [hsent.doResponse]
    exact fun h => h
  · exact fun _ id _ s' hd _ _ _ => hd.retire id s'
  · intro d hd _
    unfold flush
    split_ifs <;> exact hd.congr rfl rfl rfl

theorem DispatchedOnce.action (hok : c₀.asksAgain = false) (h : Action env c₀ c c')
    (hc : c.DispatchedOnce) : c'.DispatchedOnce := by
  cases h with
  | write h => exact hc.handleWrite h
  | control | goaway | exceeded | once | read | latest | credit | acked => exact hc.congr rfl rfl rfl
  | opened h => exact hc.openStream (find?_eq_none_of_opens h)
  | touch hfind => exact hc.setStream hfind fun h => h
  | touchHeld hheld | body hheld => exact hc.setHeld hheld fun h => h
  | fragment _ _ hfind _ hphase =>
    have hd := hc.setStream hfind fun h => hphase.doResponse.trans h
    exact hd.congr rfl rfl rfl
  | undecodable _ _ _ _ _ _ hfind _ hphase =>
    have hd := hc.setStream hfind fun h => hphase.doResponse.trans h
    exact hd.congr rfl rfl rfl
  | unconvertible _ _ _ _ _ hfind _ hphase =>
    have hd := hc.setStream hfind fun h => hphase.doResponse.trans h
    exact hd.congr rfl rfl rfl
  | completed _ _ _ _ _ hfind _ hphase =>
    have hd := hc.setStream hfind fun h => hphase.doResponse.trans h
    exact hd.congr rfl rfl rfl
  | answered _ _ _ _ _ hopen hfind _ hphase _ hfresh =>
    have hnew := hc.notMem hopen hfind (hfresh hok)
    exact hc.dispatch hnew hfind hphase.doResponse rfl rfl rfl
  | accept _ _ hheld =>
    refine DispatchedOnce.setHeld ?_ hheld fun h => h
    exact hc.congr rfl rfl rfl
  | replenish h =>
    have hd := DispatchedOnce.handleWrite h (hc.congr rfl rfl rfl)
    exact hd.congr rfl rfl rfl
  | replenishStream h hheld =>
    have hd := DispatchedOnce.handleWrite h (hc.congr rfl rfl rfl)
    exact hd.setHeld hheld fun h => h
  | respond _ _ hphase _ hfresh =>
    obtain ⟨hopen, r, hfind, hidle⟩ := hfresh hok
    have hnew := hc.notMem hopen hfind hidle
    have hin : c.streams.contains c₀.frame.ident = true := by simp [OrdMap.contains, hfind]
    rw [HttpConnectionEx.setHeld, if_pos hin]
    exact hc.dispatch hnew hfind hphase.doResponse rfl rfl rfl
  | creditStream _ _ hfind =>
    refine DispatchedOnce.congr (c := c.setStream c₀.frame.ident _) ?_ rfl rfl rfl
    exact hc.setStream hfind fun h => h
  | setting _ _ h =>
    obtain ⟨_, _, _, _, _, _, _, _, _, rfl, -⟩ := applySetting_eq h
    exact hc.congr rfl rfl rfl
  | @reset _ s _ hfind =>
    have hd := hc.retire c₀.frame.ident s
    exact hd.congr rfl rfl rfl

/-- In every run in which no frame completes the request of a stream that has been
answered, `handleRequest` is called at most once for each stream. -/
theorem requests_count_le_one {es : List (Env × Event)}
    (hrun : RunWhere step (onFrame fun c₀ => c₀.asksAgain = false) start es c) (id : ℕ) :
    (requests c.trace).count id ≤ 1 := by
  have hstart : start.DispatchedOnce := ⟨List.nodup_nil, by simp [start, readMagic, readBlock, requests]⟩
  have hc : c.DispatchedOnce := by
    refine run_invariant DispatchedOnce hstart ?_ hrun
    intro c env e c' hc hok h
    cases h with
    | more | stranger | tooLong | header | readFailed | lastWritten | writeFailed =>
      exact hc.congr rfl rfl rfl
    | greeted _ _ h => exact DispatchedOnce.handleWrite h (hc.congr rfl rfl rfl)
    | written _ h => exact DispatchedOnce.handleWrite h (hc.congr rfl rfl rfl)
    | frame _ hc₀ hdel hacts =>
      subst hc₀
      apply hacts.invariant fun _ _ hact hd => hd.action (hok _ hdel) hact
      exact hc.congr rfl rfl rfl
  exact List.nodup_iff_count_le_one.mp hc.nodup id

def postRequest : List (Env × Event) :=
  openRequest ++ incoming (servletService [1]) frameTypeData 1 1 []

theorem requests_count_le_one_post : ∃ c : HttpConnectionEx,
    (requests c.trace).count 1 = 1 ∧ ∀ id, (requests c.trace).count id ≤ 1 := by
  obtain ⟨c, hrun, hc⟩ := exists_run_of_any step (onFrame fun c₀ => c₀.asksAgain = false) start
    postRequest (fun c => (requests c.trace).count 1 = 1) (by decide +kernel)
  exact ⟨c, by simpa using hc, fun id => requests_count_le_one hrun id⟩

/-- The DATA comes once more while the response waits for the end of a write. -/
def repeatedRun : List (Env × Event) :=
  postRequest ++ incoming (servletService [1]) frameTypeData 1 1 []

theorem repeatedRun_requests_twice :
    ∃ c, RunWhere step Unrestricted start repeatedRun c ∧ ¬ (requests c.trace).count 1 ≤ 1 := by
  obtain ⟨c, hrun, hc⟩ := exists_run_of_any step Unrestricted start repeatedRun
    (fun c => (requests c.trace).count 1 = 2) (by decide +kernel)
  simp only [decide_eq_true_eq] at hc
  exact ⟨c, hrun, by omega⟩

end HttpConnectionEx
end Sese.Service.Http
