import Sese.Service.Http.Transitions

/-!
# Frames do not wedge the connection

After a frame the connection waits for the next one, or it writes a last GOAWAY
frame. Every handler ends in one of these ways, with one exception: the code that
`handleSettingsFrame` returns for a frame it rejects is looked at by nobody, so the
frame is not answered and nothing is read any more.
-/
namespace Sese.Service.Http

open Foundation Sese.Net.Http

namespace HttpConnectionEx

variable {env : Env} {c₀ c c' : HttpConnectionEx} {id : ℕ} {s s' : HttpStream}

/-- A frame header is being read, or the last frame is being written, or the
connection is gone. -/
def Alive (c : HttpConnectionEx) : Prop :=
  (∃ op ∈ c.reads, op.kind = .frameHeader) ∨ .once ∈ c.writes ∨ c.disposed

/-- GOAWAY with the debug data `shutdown`. -/
def isShutdown (c : HttpConnectionEx) : Bool :=
  c.frame.type = frameTypeGoaway && c.slice 8 (c.frame.length - 8) = bytes "shutdown"

/-- A SETTINGS frame that `handleSettingsFrame` rejects with `code` is answered with a
GOAWAY frame of that code. -/
def SettingsAnswered (c₀ c' : HttpConnectionEx) : Prop :=
  c₀.interrupts = false → c₀.frame.type = frameTypeSettings →
    ∀ code c₁, c₀.handleSettingsFrame = .ok (code, c₁) → code ≠ 0 → code ≠ settingsAcked →
      ∃ t, c'.trace = t ++ c₀.trace ∧ .goaway c₀.frame code ∈ t

def rejectsSetting (c : HttpConnectionEx) (e : ℕ × ℕ) : Bool :=
  e.1 = settingsMaxFrameSize && (e.2 > 16777215 || e.2 < 16384) ||
    e.1 = settingsEnablePush && e.2 > 1 ||
    e.1 = settingsInitialWindowSize && (c.acceptStreamCount ≠ 0 || e.2 > 2147483647)

/-- SETTINGS on a stream, an acknowledgement with a payload, a payload that is not a
sequence of settings, or a setting that is not allowed. -/
def rejectsSettings (c : HttpConnectionEx) : Bool :=
  !c.interrupts && c.frame.type = frameTypeSettings && (c.frame.ident ≠ 0 ||
    if c.frame.hasFlag settingsFlagsAck then c.frame.length ≠ 0
    else c.frame.length % 6 ≠ 0 || (settingsOf c.payload).any c.rejectsSetting)

theorem applySetting_code {ident value code : ℕ}
    (h : c.applySetting ident value = .ok (code, c')) :
    (code ≠ 0 ↔ c.rejectsSetting (ident, value)) ∧ code ≠ settingsAcked := by
  -- the identifiers of the settings are distinct numbers
  have hnum : settingsHeaderTableSize = 1 ∧ settingsEnablePush = 2 ∧
      settingsMaxConcurrentStreams = 3 ∧ settingsInitialWindowSize = 4 ∧
      settingsMaxFrameSize = 5 ∧ settingsMaxHeaderListSize = 6 := by decide
  have hcode : goawayProtocolError = 1 ∧ goawayFlowControlError = 3 ∧ settingsAcked = 255 := by
    decide
  simp only [rejectsSetting, Bool.or_eq_true, Bool.and_eq_true, decide_eq_true_eq]
  cases applySetting_outcome h with
  | unknown hident =>
    simp only [List.mem_cons, not_or] at hident
    omega
  | headerTableSize | maxConcurrentStreams | maxFrameSize | frameSizeRefused | enablePush
  | pushRefused | maxHeaderListSize | initialWindowSize | windowRefused => omega

theorem applySettings_code {l : List (ℕ × ℕ)} {code : ℕ}
    (h : c.applySettings l = .ok (code, c')) :
    (code ≠ 0 ↔ l.any c.rejectsSetting) ∧ code ≠ settingsAcked := by
  induction l generalizing c with
  | nil =>
    cases h
    simp [settingsAcked]
  | cons e l ih =>
    obtain ⟨⟨k, d⟩, hone, h⟩ := bind_eq_ok.mp h
    have hk := applySetting_code hone
    dsimp only at h
    split_ifs at h with hzero
    · cases h
      simp [hk.1.mp hzero, hzero, hk.2]
    · have hsame : d.rejectsSetting = c.rejectsSetting := by
        obtain ⟨_, _, _, _, _, _, _, _, _, rfl, -⟩ := applySetting_eq hone
        rfl
      have hfirst : c.rejectsSetting (e.1, e.2) = false := by simpa [hzero] using hk.1
      rw [List.any_cons, hfirst, Bool.false_or, ← hsame]
      exact ih h

/-- The code is one of an error exactly for the frames that are rejected. -/
theorem handleSettingsFrame_code {code : ℕ} (hint : c.interrupts = false)
    (htype : c.frame.type = frameTypeSettings) (h : c.handleSettingsFrame = .ok (code, c')) :
    code ≠ 0 ∧ code ≠ settingsAcked ↔ c.rejectsSettings := by
  unfold handleSettingsFrame at h
  simp only [rejectsSettings, hint, htype]
  split_ifs at h with hident hack hlen hsix
  · cases h
    simp [hident, goawayProtocolError, settingsAcked]
  · cases h
    simp [hack, hlen, goawayFrameSizeError, settingsAcked]
  · cases h
    simp [hident, hack, hlen]
  · cases h
    simp [hack, hsix, goawayFrameSizeError, settingsAcked]
  · obtain ⟨hcode, hacked⟩ := applySettings_code h
    simp [hident, hack, hsix, hacked] at hcode ⊢
    exact hcode

theorem handleSettingsFrame_trace {code : ℕ} (h : c.handleSettingsFrame = .ok (code, c')) :
    c'.trace = c.trace := by
  refine handleSettingsFrame_same (f := trace) ?_ (fun _ => rfl) h
  intro c ident value code c' hone
  obtain ⟨_, _, _, _, _, _, _, _, _, rfl, -⟩ := applySetting_eq hone
  rfl

/-- The handler has ended with a read, or with a last frame. -/
def GoesOn (c : HttpConnectionEx) : Prop := c.isRead = true ∨ .once ∈ c.writes

theorem handleWrite_isRead (h : c.handleWrite = .ok c') : c'.isRead = true := by
  let d := if c.isRead then c else c.readFrameHeader
  have hd : d.isRead = true := by
    by_cases hread : c.isRead = true
    · simp [d, hread]
    · simp [d, hread, readFrameHeader, readBlock]
  have h : d.handleWrite = .ok c' := by
    unfold handleWrite at h ⊢
    rwa [if_pos hd]
  refine handleWrite_invariant (P := fun c => c.isRead = true) ?_ ?_ ?_ ?_ ?_ ?_ h hd
  · exact fun _ _ _ => rfl
  · exact fun _ hc => hc
  · exact fun _ _ _ _ hc _ _ => hc
  · exact fun _ _ _ _ hc _ _ _ => hc
  · exact fun _ _ _ _ hc _ _ _ => hc
  · intro c hc _
    unfold flush
    split_ifs <;> exact hc

theorem GoesOn.goaway {latest code : ℕ} {msg : Bytes} {once : Bool}
    (h : c.writeGoawayFrame latest code msg once = .ok c') : c'.GoesOn := by
  cases once with
  | true =>
    cases h
    exact .inr (by simp [writeBlock])
  | false => exact .inl (handleWrite_isRead h)

theorem GoesOn.windowUpdate (h : c.handleWindowUpdate = .ok c') : c'.GoesOn := by
  unfold handleWindowUpdate at h
  dsimp only at h
  split_ifs at h
  · exact .goaway h
  · exact .goaway h
  · exact .goaway h
  · cases h
    exact .inl rfl
  · split at h
    · cases h
      exact .inl rfl
    · split_ifs at h
      · exact .inl (handleWrite_isRead h)
      · cases h
        exact .inl rfl

theorem GoesOn.goawayFrame (htype : c.frame.type = frameTypeGoaway) (hsh : c.isShutdown = false)
    (h : c.handleGoawayFrame = .ok c') : c'.GoesOn := by
  have hmsg : ¬ c.slice 8 (c.frame.length - 8) = bytes "shutdown" := by
    simpa [isShutdown, htype] using hsh
  unfold handleGoawayFrame at h
  dsimp only at h
  by_cases hident : c.frame.ident ≠ 0
  · rw [if_pos hident] at h
    exact .goaway h
  rw [if_neg hident] at h
  cases hfind : c.streams.find? c.frame.ident with
  | none =>
    simp only [hfind] at h
    split_ifs at h
    cases h
    exact .inl rfl
  | some s =>
    simp only [hfind] at h
    split_ifs at h with hlen hshut
    · exact absurd hshut hmsg
    · cases h
      exact .inl rfl

theorem GoesOn.rstStream (h : c.handleRstStreamFrame env = .ok c') : c'.GoesOn := by
  unfold handleRstStreamFrame at h
  dsimp only at h
  split_ifs at h
  · exact .goaway h
  · exact .goaway h
  · cases h
    exact .inl rfl
  · split at h
    · exact .goaway h
    · cases h
      exact .inl rfl

theorem GoesOn.notePriority (h : c.notePriority s = .ok c') : c'.GoesOn := by
  unfold HttpConnectionEx.notePriority at h
  dsimp only at h
  split_ifs at h
  · exact .goaway h
  · cases h
    exact .inl rfl

theorem GoesOn.priority (h : c.handlePriorityFrame = .ok c') : c'.GoesOn := by
  unfold handlePriorityFrame at h
  dsimp only at h
  split_ifs at h
  · exact .goaway h
  · exact .goaway h
  · split at h
    · exact .notePriority h
    · exact .notePriority h

theorem GoesOn.ping (h : c.handlePingFrame = .ok c') : c'.GoesOn := by
  unfold handlePingFrame at h
  split_ifs at h
  · exact .goaway h
  · exact .goaway h
  · exact .goaway h
  · exact .inl (handleWrite_isRead h)

theorem GoesOn.headersEnd (h : c.headersEnd env s = .ok c') : c'.GoesOn := by
  unfold HttpConnectionEx.headersEnd at h
  dsimp only at h
  obtain ⟨⟨code, d⟩, -, h⟩ := bind_eq_ok.mp h
  dsimp only at h
  split_ifs at h
  · exact .goaway h
  · exact .goaway h
  · obtain ⟨r, -, h⟩ := bind_eq_ok.mp h
    exact .inl (handleWrite_isRead h)
  · cases h
    exact .inl rfl

theorem GoesOn.headersFragment (h : c.headersFragment env s = .ok c') : c'.GoesOn := by
  unfold HttpConnectionEx.headersFragment at h
  dsimp only at h
  split_ifs at h
  · exact .goaway h
  · exact .goaway h
  · exact .headersEnd h
  · cases h
    exact .inl rfl

theorem GoesOn.headers (h : c.handleHeadersFrame env = .ok c') : c'.GoesOn := by
  unfold handleHeadersFrame at h
  dsimp only at h
  cases hfind : c.streams.find? c.frame.ident with
  | none =>
    simp only [hfind] at h
    split_ifs at h
    · exact .goaway h
    · exact .goaway h
    · exact .goaway h
    · exact .goaway h
    · exact .headersFragment h
    · exact .goaway h
  | some s =>
    simp only [hfind] at h
    split_ifs at h
    · exact .goaway h
    · exact .goaway h
    · exact .goaway h
    · exact .headersFragment h
    · exact .headersFragment h

theorem GoesOn.dataEnd (h : c.dataEnd env = .ok c') : c'.GoesOn := by
  unfold HttpConnectionEx.dataEnd at h
  dsimp only at h
  split_ifs at h
  · obtain ⟨s, -, h⟩ := withHeld_eq_ok h
    split_ifs at h
    · exact .goaway h
    · exact .goaway h
    · obtain ⟨r, -, h⟩ := bind_eq_ok.mp h
      exact .inl (handleWrite_isRead h)
  · cases h
    exact .inl rfl

theorem GoesOn.dataBody (h : c.dataBody env = .ok c') : c'.GoesOn := by
  unfold HttpConnectionEx.dataBody at h
  dsimp only at h
  obtain ⟨s, -, h⟩ := withHeld_eq_ok h
  split_ifs at h
  · exact .goaway h
  · exact .dataEnd h
  · exact .dataEnd h
  · exact .dataEnd h
  · exact .dataEnd h

theorem GoesOn.dataAccept (h : c.dataAccept env = .ok c') : c'.GoesOn := by
  unfold HttpConnectionEx.dataAccept at h
  dsimp only at h
  obtain ⟨s, -, h⟩ := withHeld_eq_ok h
  split_ifs at h
  · exact .goaway h
  · obtain ⟨d, -, h⟩ := bind_eq_ok.mp h
    obtain ⟨d', -, h⟩ := bind_eq_ok.mp h
    exact .dataBody h

theorem GoesOn.data (h : c.handleDataFrame env = .ok c') : c'.GoesOn := by
  unfold handleDataFrame at h
  dsimp only at h
  split_ifs at h
  · exact .goaway h
  · exact .goaway h
  · exact .goaway h
  · split at h
    · exact .goaway h
    · split_ifs at h
      · obtain ⟨d, -, h⟩ := bind_eq_ok.mp h
        exact .dataAccept h
      · exact .dataAccept h

theorem GoesOn.frame (hsh : c.isShutdown = false) (hset : c.rejectsSettings = false)
    (h : c.handleFrameHeader env = .ok c') : c'.GoesOn := by
  revert h
  refine handleFrameHeader_rule (P := fun r => r = .ok c' → c'.GoesOn)
    ?goaway ?settings ?update ?goawayFrame ?headers ?data ?priority ?rstStream ?ping
  case goaway => exact fun _ _ => .goaway
  case settings =>
    intro hint hsettings h
    obtain ⟨⟨code, d⟩, hcode, h⟩ := bind_eq_ok.mp h
    dsimp only at h
    split_ifs at h with hacked hok
    · cases h
      exact .inl rfl
    · exact .inl (handleWrite_isRead h)
    · have := (handleSettingsFrame_code hint hsettings hcode).mp ⟨hok, hacked⟩
      simp [hset] at this
  case update => exact fun _ _ => .windowUpdate
  case goawayFrame => exact fun _ hgoaway => .goawayFrame hgoaway hsh
  case headers => exact fun _ _ _ => .headers
  case data => exact fun _ _ => .data
  case priority => exact fun _ _ => .priority
  case rstStream => exact fun _ _ => .rstStream
  case ping => exact fun _ _ => .ping

/-- A read that was started since the frame arrived is one of a frame header. -/
def Armed (c : HttpConnectionEx) : Prop := c.isRead = true → ∃ op ∈ c.reads, op.kind = .frameHeader

theorem Armed.readFrameHeader (c : HttpConnectionEx) : c.readFrameHeader.Armed :=
  fun _ => ⟨⟨.frameHeader, 0, 9⟩, by simp [HttpConnectionEx.readFrameHeader, readBlock], rfl⟩

theorem Armed.handleWrite (h : c.handleWrite = .ok c') (hc : c.Armed) : c'.Armed := by
  refine handleWrite_invariant (P := Armed) ?_ ?_ ?_ ?_ ?_ ?_ h hc
  · exact fun c _ _ => .readFrameHeader c
  · exact fun _ hc => hc
  · exact fun _ _ _ _ hc _ _ => hc
  · exact fun _ _ _ _ hc _ _ _ => hc
  · exact fun _ _ _ _ hc _ _ _ => hc
  · intro c hc _
    unfold flush
    split_ifs <;> exact hc

theorem Armed.setHeld (hc : c.Armed) (id : ℕ) (s : HttpStream) : (c.setHeld id s).Armed := by
  unfold HttpConnectionEx.setHeld
  split_ifs <;> exact hc

theorem Armed.action (h : Action env c₀ c c') (hc : c.Armed) : c'.Armed := by
  cases h with
  | write h => exact hc.handleWrite h
  | control | goaway | exceeded | once | opened | latest | touch | fragment | undecodable
  | unconvertible | completed | answered | credit | creditStream | acked | reset => exact hc
  | read => exact .readFrameHeader _
  | touchHeld | body => exact hc.setHeld _ _
  | accept | respond =>
    refine Armed.setHeld ?_ _ _
    exact hc
  | @replenish _ d h =>
    have hd : d.Armed := Armed.handleWrite h hc
    exact hd
  | @replenishStream _ d _ h =>
    have hd : d.Armed := Armed.handleWrite h hc
    exact hd.setHeld _ _
  | setting _ _ h =>
    obtain ⟨_, _, _, _, _, _, _, _, _, rfl, -⟩ := applySetting_eq h
    exact hc

theorem Alive.of_goesOn (hgoes : c.GoesOn) (harmed : c.Armed) : c.Alive := by
  rcases hgoes with hread | honce
  · exact .inl (harmed hread)
  · exact .inr (.inl honce)

/-- A rejected SETTINGS frame leaves no trace. -/
theorem settings_unanswered (hset : c₀.rejectsSettings) (h : c₀.handleFrameHeader env = .ok c') :
    ¬ SettingsAnswered c₀ c' := by
  have hint : c₀.interrupts = false := by
    simp only [rejectsSettings, Bool.and_eq_true, Bool.not_eq_true'] at hset
    exact hset.1.1
  have htype : c₀.frame.type = frameTypeSettings := by
    simp only [rejectsSettings, Bool.and_eq_true, decide_eq_true_eq] at hset
    exact hset.1.2
  unfold handleFrameHeader at h
  simp only [hint, htype, Bool.false_eq_true, if_false, if_true] at h
  obtain ⟨⟨code, d⟩, hcode, h⟩ := bind_eq_ok.mp h
  obtain ⟨hok, hacked⟩ := (handleSettingsFrame_code hint htype hcode).mpr hset
  simp only [hok, hacked, if_false] at h
  cases h
  intro hanswered
  obtain ⟨t, ht, hmem⟩ := hanswered hint htype code c' hcode hok hacked
  rw [handleSettingsFrame_trace hcode] at ht
  have : t = [] := by simpa using ht
  rw [this] at hmem
  cases hmem

/-- A connection is alive after a frame, and answers the SETTINGS frames it rejects,
unless the frame is such a SETTINGS frame. -/
theorem alive_iff_settings_accepted {e : Event} (hdel : c.delivered e = some c₀)
    (hshutdown : c₀.isShutdown = false) (h : c₀.handleFrameHeader env = .ok c') :
    c'.Alive ∧ SettingsAnswered c₀ c' ↔ c₀.rejectsSettings = false := by
  constructor
  · rintro ⟨-, hanswered⟩
    by_contra hset
    exact settings_unanswered (by simpa using hset) h hanswered
  · intro hset
    have hread : c₀.isRead = false := by
      obtain ⟨i, op, data, rfl⟩ := delivered_eq_some hdel
      rfl
    have harmed : c₀.Armed := by
      intro h
      rw [hread] at h
      cases h
    have hacts := handleFrameHeader_actions hread h
    have harmed' : c'.Armed := hacts.invariant (fun _ _ hact hd => hd.action hact) harmed
    refine ⟨.of_goesOn (.frame hshutdown hset h) harmed', ?_⟩
    intro hint htype code c₁ hcode hok hacked
    have := (handleSettingsFrame_code hint htype hcode).mp ⟨hok, hacked⟩
    simp [hset] at this

instance (c : HttpConnectionEx) : Decidable c.Alive := inferInstanceAs (Decidable (_ ∨ _ ∨ _))

/-- The header of a SETTINGS frame without settings on stream `ident`; its payload,
which is empty, comes next. -/
def settingsHeader (ident : UInt8) : List (Env × Event) :=
  greeting (servletService []) ++ [(servletService [], .read 0 [0, 0, 0, 4, 0, 0, 0, 0, ident])]

/-- Empty settings of the connection are accepted. -/
theorem alive_after_settings : ∃ c c₀ c', RunWhere step Unrestricted start (settingsHeader 0) c ∧
    c.delivered (.read 0 []) = some c₀ ∧ c₀.handleFrameHeader (servletService []) = .ok c' ∧
    c'.Alive ∧ SettingsAnswered c₀ c' := by
  obtain ⟨c, hrun, hc⟩ := exists_run_of_any step Unrestricted start (settingsHeader 0)
    (fun c => (c.delivered (.read 0 [])).any fun c₀ => !c₀.isShutdown && !c₀.rejectsSettings &&
      (c₀.handleFrameHeader (servletService [])).toBool) (by decide +kernel)
  simp only [Option.any_eq_true, Bool.and_eq_true, Bool.not_eq_true'] at hc
  obtain ⟨c₀, hdel, ⟨hsh, hset⟩, hok⟩ := hc
  cases h : c₀.handleFrameHeader (servletService []) with
  | error x => simp [h, Except.toBool] at hok
  | ok c' => exact ⟨c, c₀, c', hrun, hdel, h, (alive_iff_settings_accepted hdel hsh h).mpr hset⟩

/-- The same frame on stream 1 is rejected: it is not answered, nothing is read and
nothing is written any more. -/
theorem rejectedSettings_wedge : ∃ c c₀ c',
    RunWhere step Unrestricted start (settingsHeader 1) c ∧
    c.delivered (.read 0 []) = some c₀ ∧ c₀.isShutdown = false ∧
    c₀.handleFrameHeader (servletService []) = .ok c' ∧ ¬ c'.Alive ∧ ¬ SettingsAnswered c₀ c' := by
  obtain ⟨c, hrun, hc⟩ := exists_run_of_any step Unrestricted start (settingsHeader 1)
    (fun c => (c.delivered (.read 0 [])).any fun c₀ => !c₀.isShutdown && c₀.rejectsSettings &&
      match c₀.handleFrameHeader (servletService []) with
      | .ok c' => !decide c'.Alive
      | .error _ => false) (by decide +kernel)
  simp only [Option.any_eq_true, Bool.and_eq_true, Bool.not_eq_true'] at hc
  obtain ⟨c₀, hdel, ⟨hsh, hset⟩, hok⟩ := hc
  cases h : c₀.handleFrameHeader (servletService []) with
  | error x => simp [h] at hok
  | ok c' => exact ⟨c, c₀, c', hrun, hdel, hsh, h, by simpa [h] using hok, settings_unanswered hset h⟩

end HttpConnectionEx
end Sese.Service.Http
