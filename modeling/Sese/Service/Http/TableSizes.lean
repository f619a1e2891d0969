import Sese.Net.Http.SizeUpdates
import Sese.Service.Http.FrameSlices
import Sese.Service.Http.Liveness

/-!
# The sizes of the HPACK tables

`resp_dynamic_table` belongs to the encoder of the server and follows the settings of
the client; `req_dynamic_table` belongs to its decoder and follows the size updates
in the header blocks, up to the size that the server has advertised. The code resizes
the wrong table for HEADER_TABLE_SIZE, both tables for MAX_HEADER_LIST_SIZE, and takes
the setting of the client as the limit for size updates.
-/
namespace Sese.Service.Http

open Foundation Sese.Net.Http

namespace HttpConnectionEx

variable {env : Env} {c₀ c c' d : HttpConnectionEx} {id : ℕ} {s s' : HttpStream}

/-- The maxima of the decoder's and the encoder's table, and `header_table_size`, the
last HEADER_TABLE_SIZE received. -/
structure Sizes where
  req : ℕ
  resp : ℕ
  setting : ℕ
  deriving DecidableEq

def sizes (c : HttpConnectionEx) : Sizes :=
  ⟨c.reqDynamicTable.max, c.respDynamicTable.max, c.headerTableSize⟩

/-- The sizes after a list of settings; the first one that is not allowed ends it. -/
def sizesAfter (c : HttpConnectionEx) : List (ℕ × ℕ) → Sizes → Sizes
  | [], z => z
  | e :: l, z =>
    if c.rejectsSetting e then z
    else if e.1 = settingsHeaderTableSize then c.sizesAfter l { z with req := e.2, setting := e.2 }
    else if e.1 = settingsMaxHeaderListSize then c.sizesAfter l { z with req := e.2, resp := e.2 }
    else c.sizesAfter l z

def settingsTaken (c : HttpConnectionEx) : List (ℕ × ℕ) :=
  if !c.interrupts && c.frame.type = frameTypeSettings && c.frame.ident = 0 &&
    !c.frame.hasFlag settingsFlagsAck && c.frame.length % 6 = 0 then settingsOf c.payload else []

/-- The size updates that are applied when a header block is decoded. -/
def decodeUpdates (env : Env) (c : HttpConnectionEx) (header : Header) (block : Bytes) : List ℕ :=
  HPackUtil.sizeUpdates env.indet block.length c.headerTableSize block.length
    { src := block, table := c.reqDynamicTable, header := header }

/-- The size updates of the block that a fragment completes. -/
def fragmentUpdates (env : Env) (c : HttpConnectionEx) (s : HttpStream) : List ℕ :=
  if c.dependsOnItself ∨ c.paddedLength > c.frame.length then []
  else if s.endHeaders || c.frame.hasFlag frameFlagEndHeaders then
    decodeUpdates env c s.request.header (s.tempBuffer ++ c.slice (fragmentOffset c.frame)
      (c.frame.length - c.paddedLength - fragmentOffset c.frame))
  else []

/-- The size updates that are applied when the frame completes a header block. -/
def blockUpdates (env : Env) (c : HttpConnectionEx) : List ℕ :=
  if !c.interrupts && c.takesFragment then
    match c.fragmentStart with
    | none => []
    | some (d, s) => fragmentUpdates env d s
  else []

/-- A frame changes the size of the decoder's table by size updates in header blocks
only, which are within the size that the server has advertised; SETTINGS frames do
not change it. -/
structure DecoderFollows (env : Env) (c₀ c' : HttpConnectionEx) : Prop where
  settings : c₀.frame.type = frameTypeSettings →
    c'.reqDynamicTable.max = c₀.reqDynamicTable.max
  updates : ∀ n ∈ blockUpdates env c₀, n ≤ localHeaderTableSize
  last : c'.reqDynamicTable.max =
    ((blockUpdates env c₀).getLast?).getD c₀.reqDynamicTable.max

/-- The frame that completes with the event does so, and other events leave the size
of the decoder's table alone. -/
def DecoderFollowsAt (c : HttpConnectionEx) (e : Env × Event) : Prop :=
  ∀ c', c.step e = .ok c' →
    match c.delivered e.2 with
    | some c₀ => DecoderFollows e.1 c₀ c'
    | none => c'.reqDynamicTable.max = c.reqDynamicTable.max

/-- The value of the last setting of these kinds, if there is one. -/
def lastValue (idents : List ℕ) (l : List (ℕ × ℕ)) : Option ℕ :=
  ((l.filter fun e => e.1 ∈ idents).getLast?).map Prod.snd

/-- The settings of the frame before the first one that is not allowed. -/
def settingsApplied (c : HttpConnectionEx) : List (ℕ × ℕ) :=
  c.settingsTaken.takeWhile fun e => !c.rejectsSetting e

/-- The condition on a frame. The last of its HEADER_TABLE_SIZE and MAX_HEADER_LIST_SIZE
settings is the size that the decoder's table has; with the settings that are there
already, the last MAX_HEADER_LIST_SIZE is within the last HEADER_TABLE_SIZE; and if
HEADER_TABLE_SIZE is above what the server has advertised, no size update is. -/
def keepsSizes (env : Env) (c : HttpConnectionEx) : Bool :=
  (lastValue [settingsHeaderTableSize, settingsMaxHeaderListSize] c.settingsApplied).all
      (fun n => n = c.reqDynamicTable.max) &&
    (lastValue [settingsMaxHeaderListSize] c.settingsApplied).getD c.respDynamicTable.max ≤
      (lastValue [settingsHeaderTableSize] c.settingsApplied).getD c.headerTableSize &&
    (c.headerTableSize ≤ localHeaderTableSize ||
      (blockUpdates env c).all fun n => n ≤ localHeaderTableSize)

theorem applySetting_sizes {ident value code : ℕ}
    (h : c.applySetting ident value = .ok (code, c')) :
    c'.sizes = c.sizesAfter [(ident, value)] c.sizes := by
  have hcode := (applySetting_code h).1
  simp only [sizesAfter]
  cases applySetting_outcome h with
  | headerTableSize hident hreq =>
    rw [if_neg (by simpa using hcode), if_pos hident]
    simp [sizes, HPackUtil.resize_max hreq]
  | maxHeaderListSize hident hreq hresp =>
    have hother : ident ≠ settingsHeaderTableSize := by rw [hident]; decide
    rw [if_neg (by simpa using hcode), if_neg hother, if_pos hident]
    simp [sizes, HPackUtil.resize_max hreq, HPackUtil.resize_max hresp]
  | maxConcurrentStreams hident | maxFrameSize hident | frameSizeRefused hident | enablePush hident
  | pushRefused hident | initialWindowSize hident | windowRefused hident =>
    have hother : ident ≠ settingsHeaderTableSize ∧ ident ≠ settingsMaxHeaderListSize := by
      rw [hident]; decide
    rw [if_neg hother.1, if_neg hother.2]
    exact (ite_self _).symm
  | unknown hident =>
    simp only [List.mem_cons, not_or] at hident
    rw [if_neg hident.1, if_neg hident.2.2.2.2.1, ite_self]

theorem applySettings_sizes {l : List (ℕ × ℕ)} {code : ℕ}
    (h : c.applySettings l = .ok (code, c')) : c'.sizes = c.sizesAfter l c.sizes := by
  induction l generalizing c with
  | nil =>
    cases h
    rfl
  | cons e l ih =>
    obtain ⟨⟨k, d⟩, hone, h⟩ := bind_eq_ok.mp h
    have hcode := (applySetting_code hone).1
    have hsizes := applySetting_sizes hone
    have hsame : d.sizesAfter = c.sizesAfter := by
      funext l
      obtain ⟨_, _, _, _, _, _, _, _, _, rfl, -⟩ := applySetting_eq hone
      induction l with
      | nil => rfl
      | cons e l ih => simp only [sizesAfter, ih]; rfl
    dsimp only at h
    simp only [sizesAfter] at hsizes ⊢
    split_ifs at h with hk
    · cases h
      rw [if_pos (hcode.mp hk)] at hsizes ⊢
      exact hsizes
    · rw [if_neg (fun hr => hk (hcode.mpr hr))] at hsizes ⊢
      rw [ih h, hsizes, hsame]
      split_ifs <;> rfl

theorem handleSettingsFrame_sizes {code : ℕ} (hint : c.interrupts = false)
    (htype : c.frame.type = frameTypeSettings) (h : c.handleSettingsFrame = .ok (code, c')) :
    c'.sizes = c.sizesAfter c.settingsTaken c.sizes := by
  unfold handleSettingsFrame at h
  unfold settingsTaken
  split_ifs at h with hident hack hlen hsix
  · cases h
    simp [hident, sizesAfter]
  · cases h
    simp [hack, sizesAfter]
  · cases h
    simp [hack, sizesAfter, sizes]
  · cases h
    simp [hsix, sizesAfter]
  · rw [not_not] at hident hsix
    simp only [hint, htype, hident, hsix, hack, Bool.not_false, decide_true, Bool.and_self, if_true]
    exact applySettings_sizes h

theorem handleWrite_tables (h : c.handleWrite = .ok c') :
    c'.reqDynamicTable = c.reqDynamicTable ∧ c'.sizes = c.sizes := by
  refine handleWrite_invariant (P := fun d => d.reqDynamicTable = c.reqDynamicTable ∧
    d.sizes = c.sizes) ?_ ?_ ?_ ?_ ?_ ?_ h ⟨rfl, rfl⟩
  · exact fun _ hd _ => hd
  · exact fun _ hd => hd
  · exact fun _ _ _ _ hd _ _ => hd
  · exact fun _ _ _ _ hd _ _ _ => hd
  · exact fun _ _ _ _ hd _ _ _ => hd
  · intro d hd _
    unfold flush
    split_ifs <;> exact hd

theorem goaway_tables {latest code : ℕ} {msg : Bytes} {once : Bool}
    (h : c.writeGoawayFrame latest code msg once = .ok c') :
    c'.reqDynamicTable = c.reqDynamicTable ∧ c'.sizes = c.sizes := by
  cases once with
  | true =>
    cases h
    exact ⟨rfl, rfl⟩
  | false =>
    have htables := handleWrite_tables h
    exact htables

theorem setHeld_sizes : (c.setHeld id s).sizes = c.sizes := by
  unfold setHeld
  split_ifs <;> rfl

/-- Only settings change what the encoder may use, and only header blocks and settings
change the decoder's table. -/
structure SameSizes (c₀ c c' : HttpConnectionEx) : Prop where
  resp : c'.respDynamicTable.max = c.respDynamicTable.max
  setting : c'.headerTableSize = c.headerTableSize
  req : isHeaders c₀.frame = false → c'.reqDynamicTable.max = c.reqDynamicTable.max

theorem SameSizes.of_sizes (h : c'.sizes = c.sizes) : SameSizes c₀ c c' where
  resp := congrArg Sizes.resp h
  setting := congrArg Sizes.setting h
  req := fun _ => congrArg Sizes.req h

theorem SameSizes.of_headers (htype : isHeaders c₀.frame)
    (hresp : c'.respDynamicTable.max = c.respDynamicTable.max)
    (hsetting : c'.headerTableSize = c.headerTableSize) : SameSizes c₀ c c' where
  resp := hresp
  setting := hsetting
  req := fun h => by simp [htype] at h

theorem SameSizes.action (htype : c₀.frame.type ≠ frameTypeSettings) (h : Action env c₀ c c') :
    SameSizes c₀ c c' := by
  cases h with
  | write h => exact .of_sizes (handleWrite_tables h).2
  | control | goaway | exceeded | once | read | opened | latest | touch | fragment | credit
  | creditStream | acked | reset => exact .of_sizes rfl
  | undecodable _ _ _ _ hheaders | unconvertible _ _ _ hheaders | completed _ _ _ hheaders =>
    exact .of_headers hheaders rfl rfl
  | answered _ _ _ _ hheaders _ _ _ _ _ _ _ hanswers =>
    obtain ⟨_, _, -, hencode, -⟩ := hanswers
    exact .of_headers hheaders (HPackUtil.encode_max hencode) rfl
  | touchHeld | body => exact .of_sizes setHeld_sizes
  | accept => exact .of_sizes setHeld_sizes
  | respond _ _ _ _ _ hanswers =>
    obtain ⟨_, _, -, hencode, -⟩ := hanswers
    have hmax := HPackUtil.encode_max hencode
    refine .of_sizes (setHeld_sizes.trans ?_)
    simpa [sizes] using hmax
  | replenish h => exact .of_sizes (handleWrite_tables h).2
  | replenishStream h => exact .of_sizes (setHeld_sizes.trans (handleWrite_tables h).2)
  | setting hsettings => exact absurd hsettings htype

theorem SameSizes.frame (hread : c₀.isRead = false) (htype : c₀.frame.type ≠ frameTypeSettings)
    (h : c₀.handleFrameHeader env = .ok c') : SameSizes c₀ c₀ c' := by
  refine (handleFrameHeader_actions hread h).invariant (P := SameSizes c₀ c₀) ?_ (.of_sizes rfl)
  intro c c' hact hc
  have hc' := SameSizes.action htype hact
  exact ⟨hc'.resp.trans hc.resp, hc'.setting.trans hc.setting,
    fun h => (hc'.req h).trans (hc.req h)⟩

theorem headersEnd_req (h : c.headersEnd env s = .ok c') :
    c'.reqDynamicTable.max =
      ((decodeUpdates env c s.request.header s.tempBuffer).getLast?).getD c.reqDynamicTable.max := by
  unfold headersEnd at h
  dsimp only at h
  obtain ⟨⟨code, d⟩, hdecode, h⟩ := bind_eq_ok.mp h
  have hmax := HPackUtil.decode_max hdecode
  unfold decodeUpdates
  rw [← hmax]
  dsimp only at h
  split_ifs at h
  · rw [(goaway_tables h).1]
    rfl
  · rw [(goaway_tables h).1]
    rfl
  · obtain ⟨⟨e, s'⟩, hrespond, h⟩ := bind_eq_ok.mp h
    obtain ⟨-, table, rfl, -⟩ := respond_spec hrespond
    rw [(handleWrite_tables h).1]
    rfl
  · cases h
    rfl

theorem headersFragment_req (h : c.headersFragment env s = .ok c') :
    c'.reqDynamicTable.max = ((fragmentUpdates env c s).getLast?).getD c.reqDynamicTable.max := by
  unfold headersFragment at h
  unfold fragmentUpdates
  dsimp only at h
  split_ifs at h with hself hpad hwrap hdone
  · rw [if_pos (.inl hself), (goaway_tables h).1]
    rfl
  · rw [if_pos (.inr hpad), (goaway_tables h).1]
    rfl
  · rw [if_neg (by tauto), if_pos hdone]
    exact headersEnd_req h
  · rw [if_neg (by tauto), if_neg hdone]
    cases h
    rfl

theorem fragmentStart_tables (h : c.fragmentStart = some (d, s)) :
    d.reqDynamicTable = c.reqDynamicTable ∧ d.headerTableSize = c.headerTableSize := by
  rcases fragmentStart_cases h with ⟨rfl, -⟩ | ⟨rfl, -⟩
  · exact ⟨rfl, rfl⟩
  · exact ⟨rfl, rfl⟩

theorem handleFrameHeader_req (htype : isHeaders c.frame) (h : c.handleFrameHeader env = .ok c') :
    c'.reqDynamicTable.max = ((blockUpdates env c).getLast?).getD c.reqDynamicTable.max := by
  have hgoaway (hg : c.IsGoaway (.ok c')) : c'.reqDynamicTable = c.reqDynamicTable := by
    obtain ⟨latest, code, msg, once, hg⟩ := hg
    exact (goaway_tables hg.symm).1
  unfold blockUpdates
  cases hint : c.interrupts with
  | true =>
    rw [handleFrameHeader_interrupts hint] at h
    rw [(goaway_tables h).1]
    rfl
  | false =>
    have hcases : _ ∨ ∃ d s, _ ∧ _ ∧ c.handleFrameHeader env = _ :=
      handleFrameHeader_headers hint htype
    rcases hcases with ⟨hno, hg⟩ | ⟨d, s, htakes, hstart, heq⟩
    · rw [h] at hg
      rw [hgoaway hg, hno]
      rfl
    · rw [h] at heq
      have hsame := (fragmentStart_tables hstart).1
      rw [htakes, hstart, headersFragment_req heq.symm, hsame]
      rfl

theorem blockUpdates_le {n : ℕ} (h : n ∈ blockUpdates env c) : n ≤ c.headerTableSize := by
  unfold blockUpdates at h
  split_ifs at h
  · split at h
    · cases h
    · rename_i d s hstart
      unfold fragmentUpdates at h
      split_ifs at h
      · cases h
      · rw [← (fragmentStart_tables hstart).2]
        exact HPackUtil.sizeUpdates_le h
      · cases h
  · cases h

theorem blockUpdates_eq_nil (h : isHeaders c.frame = false) : blockUpdates env c = [] := by
  simp [blockUpdates, takesFragment_eq_false h]

theorem handleFrameHeader_settings (htype : c.frame.type = frameTypeSettings)
    (h : c.handleFrameHeader env = .ok c') : c'.sizes = c.sizesAfter c.settingsTaken c.sizes := by
  cases hint : c.interrupts with
  | true =>
    rw [handleFrameHeader_interrupts hint] at h
    rw [(goaway_tables h).2]
    simp [settingsTaken, hint, sizesAfter]
  | false =>
    unfold handleFrameHeader at h
    dsimp only at h
    rw [if_neg (by simp [hint]), if_pos htype] at h
    obtain ⟨⟨code, d⟩, hsettings, h⟩ := bind_eq_ok.mp h
    rw [← handleSettingsFrame_sizes hint htype hsettings]
    dsimp only at h
    split_ifs at h
    · cases h
      rfl
    · have htables := handleWrite_tables h
      exact htables.2
    · cases h
      rfl

theorem sizesAfter_eq (c : HttpConnectionEx) (l : List (ℕ × ℕ)) (z : Sizes) :
    let applied := l.takeWhile fun e => !c.rejectsSetting e
    c.sizesAfter l z =
      ⟨(lastValue [settingsHeaderTableSize, settingsMaxHeaderListSize] applied).getD z.req,
        (lastValue [settingsMaxHeaderListSize] applied).getD z.resp,
        (lastValue [settingsHeaderTableSize] applied).getD z.setting⟩ := by
  have hlast (idents : List ℕ) (e : ℕ × ℕ) (l : List (ℕ × ℕ)) (n : ℕ) :
      (lastValue idents (e :: l)).getD n =
        (lastValue idents l).getD (if e.1 ∈ idents then e.2 else n) := by
    unfold lastValue
    by_cases hmem : e.1 ∈ idents
    · rw [List.filter_cons_of_pos (by simpa using hmem), if_pos hmem, List.getLast?_cons]
      cases (l.filter fun e => e.1 ∈ idents).getLast? <;> rfl
    · rw [List.filter_cons_of_neg (by simpa using hmem), if_neg hmem]
  induction l generalizing z with
  | nil => rfl
  | cons e l ih =>
    unfold sizesAfter
    by_cases hreject : c.rejectsSetting e
    · rw [if_pos hreject, List.takeWhile_cons_of_neg (by simp [hreject])]
      rfl
    rw [if_neg hreject, List.takeWhile_cons_of_pos (by simpa using hreject)]
    simp only [hlast, ih]
    by_cases htable : e.1 = settingsHeaderTableSize
    · have hother : settingsHeaderTableSize ≠ settingsMaxHeaderListSize := by decide
      simp [htable, hother]
    by_cases hlist : e.1 = settingsMaxHeaderListSize
    · have hother : settingsMaxHeaderListSize ≠ settingsHeaderTableSize := by decide
      simp [hlist, hother]
    · simp [htable, hlist]

/-- The size of the encoder's table is within the last HEADER_TABLE_SIZE. -/
def EncoderWithin (c : HttpConnectionEx) : Prop := c.respDynamicTable.max ≤ c.headerTableSize

theorem EncoderWithin.frame (hc : c.EncoderWithin) (hread : c.isRead = false)
    (hkeeps : keepsSizes env c) (h : c.handleFrameHeader env = .ok c') : c'.EncoderWithin := by
  by_cases htype : c.frame.type = frameTypeSettings
  · have hsizes := handleFrameHeader_settings htype h
    rw [sizesAfter_eq] at hsizes
    simp only [keepsSizes, Bool.and_eq_true, decide_eq_true_eq] at hkeeps
    have hresp : c'.respDynamicTable.max = _ := congrArg Sizes.resp hsizes
    have hsetting : c'.headerTableSize = _ := congrArg Sizes.setting hsizes
    unfold EncoderWithin
    rw [hresp, hsetting]
    exact hkeeps.1.2
  · have hsame := SameSizes.frame hread htype h
    unfold EncoderWithin
    rw [hsame.resp, hsame.setting]
    exact hc

theorem DecoderFollows.frame (hread : c.isRead = false) (hkeeps : keepsSizes env c)
    (h : c.handleFrameHeader env = .ok c') : DecoderFollows env c c' := by
  simp only [keepsSizes, Bool.and_eq_true, decide_eq_true_eq, Bool.or_eq_true] at hkeeps
  have hupdates : ∀ n ∈ blockUpdates env c, n ≤ localHeaderTableSize := by
    intro n hn
    rcases hkeeps.2 with hlimit | hall
    · exact (blockUpdates_le hn).trans hlimit
    · simpa using List.all_eq_true.mp hall n hn
  have hsettings (htype : c.frame.type = frameTypeSettings) :
      c'.reqDynamicTable.max = c.reqDynamicTable.max := by
    have hsizes := handleFrameHeader_settings htype h
    rw [sizesAfter_eq] at hsizes
    have hreq : c'.reqDynamicTable.max = _ := congrArg Sizes.req hsizes
    rw [hreq]
    cases hlast : lastValue [settingsHeaderTableSize, settingsMaxHeaderListSize]
        c.settingsApplied with
    | none =>
      unfold settingsApplied at hlast
      rw [hlast]
      rfl
    | some n =>
      have hn : n = c.reqDynamicTable.max := by simpa [hlast] using hkeeps.1.1
      unfold settingsApplied at hlast
      rw [hlast]
      exact hn
  refine ⟨hsettings, hupdates, ?_⟩
  cases hheaders : isHeaders c.frame with
  | true => exact handleFrameHeader_req hheaders h
  | false =>
    rw [blockUpdates_eq_nil hheaders]
    by_cases htype : c.frame.type = frameTypeSettings
    · exact hsettings htype
    · exact (SameSizes.frame hread htype h).req hheaders

/-- The frames that arrive meet the condition on the sizes. -/
def SizesKept (c : HttpConnectionEx) (e : Env × Event) : Prop :=
  ∀ c₀ ∈ c.delivered e.2, keepsSizes e.1 c₀

instance (c : HttpConnectionEx) (e : Env × Event) : Decidable (c.SizesKept e) :=
  inferInstanceAs (Decidable (∀ c₀ ∈ c.delivered e.2, keepsSizes e.1 c₀))

/-- Events that complete no frame leave the sizes alone. -/
theorem sizes_of_not_delivered {e : Event} (hdel : c.delivered e = none)
    (h : Outcome env c e c') : c'.sizes = c.sizes := by
  cases h with
  | more | stranger | tooLong | header | readFailed | lastWritten | writeFailed => rfl
  | greeted _ _ h =>
    rw [(handleWrite_tables h).2]
    rfl
  | written _ h =>
    rw [(handleWrite_tables h).2]
    rfl
  | frame _ _ hdel' =>
    rw [hdel] at hdel'
    cases hdel'

theorem EncoderWithin.step {e : Env × Event} (hc : c.EncoderWithin) (hkept : c.SizesKept e)
    (h : c.step e = .ok c') : c'.EncoderWithin := by
  cases hdel : c.delivered e.2 with
  | none =>
    have hsizes := sizes_of_not_delivered hdel (step_outcome h)
    have hresp : c'.respDynamicTable.max = _ := congrArg Sizes.resp hsizes
    have hsetting : c'.headerTableSize = _ := congrArg Sizes.setting hsizes
    unfold EncoderWithin
    rw [hresp, hsetting]
    exact hc
  | some c₀ =>
    have hkeeps := hkept c₀ hdel
    have hframe : c.step (e.1, e.2) = _ := step_of_delivered hdel
    obtain ⟨i, op, data, rfl⟩ := delivered_eq_some hdel
    have hc₀ : ((c.received i op data).observe (.recv c.frame)).EncoderWithin := hc
    exact hc₀.frame rfl hkeeps (hframe.symm.trans h)

theorem DecoderFollowsAt.of_kept {e : Env × Event} (hkept : c.SizesKept e) :
    c.DecoderFollowsAt e := by
  intro c' h
  cases hdel : c.delivered e.2 with
  | none =>
    have hsizes := sizes_of_not_delivered hdel (step_outcome h)
    exact congrArg Sizes.req hsizes
  | some c₀ =>
    have hkeeps := hkept c₀ hdel
    have hframe : c.step (e.1, e.2) = _ := step_of_delivered hdel
    obtain ⟨i, op, data, rfl⟩ := delivered_eq_some hdel
    exact DecoderFollows.frame rfl hkeeps (hframe.symm.trans h)

/-- In every run whose frames meet the condition, the encoder's table stays within the
last HEADER_TABLE_SIZE of the client, and the decoder's table follows the size updates
of the header blocks alone. -/
theorem tableSizes_follow {es : List (Env × Event)} (hrun : RunWhere step SizesKept start es c) :
    c.EncoderWithin ∧ RunWhere step DecoderFollowsAt start es c := by
  have hstep : ∀ c e c', EncoderWithin c → SizesKept c e → c.step e = .ok c' →
      c'.EncoderWithin := by
    intro c e c' hc hkept hst
    exact hc.step hkept hst
  have hstart : start.EncoderWithin := by
    unfold EncoderWithin
    decide
  refine ⟨hrun.invariant EncoderWithin hstep hstart, hrun.strengthen EncoderWithin hstep ?_ hstart⟩
  intro c e _ hkept
  exact .of_kept hkept

/-- The client confirms HEADER_TABLE_SIZE, and a size update in a header block empties
the decoder's table. -/
def updatedRun : List (Env × Event) :=
  greeting (servletService []) ++
    incoming (servletService []) frameTypeSettings 0 0 ([0, 1] ++ toBigEndian32 4096) ++
    incoming (servletService []) frameTypeHeaders 5 1 (0x20 :: getRequest)

theorem tableSizes_follow_update : ∃ c, RunWhere step DecoderFollowsAt start updatedRun c ∧
    c.EncoderWithin ∧ c.reqDynamicTable.max = 0 := by
  obtain ⟨c, hrun, hc⟩ := exists_run_of_any step SizesKept start updatedRun
    (fun c : HttpConnectionEx => c.reqDynamicTable.max = 0) (by decide +kernel)
  obtain ⟨hwithin, hfollows⟩ := tableSizes_follow hrun
  exact ⟨c, hfollows, hwithin, by simpa using hc⟩

def loweredRun : List (Env × Event) :=
  greeting (servletService []) ++
    incoming (servletService []) frameTypeSettings 0 0 ([0, 1] ++ toBigEndian32 0)

/-- The setting empties the decoder's table, and the encoder's table keeps its size. -/
theorem loweredRun_sizes : ∃ c, RunWhere step Unrestricted start loweredRun c ∧
    c.headerTableSize = 0 ∧ c.respDynamicTable.max = 4096 ∧ ¬ c.EncoderWithin ∧
    c.reqDynamicTable.max ≠ start.reqDynamicTable.max := by
  obtain ⟨c, hrun, hc⟩ := exists_run_of_any step Unrestricted start loweredRun
    (fun c : HttpConnectionEx => c.sizes = ⟨0, 4096, 0⟩) (by decide +kernel)
  have hsizes : c.sizes = ⟨0, 4096, 0⟩ := by simpa using hc
  have hreq : c.reqDynamicTable.max = 0 := congrArg Sizes.req hsizes
  have hresp : c.respDynamicTable.max = 4096 := congrArg Sizes.resp hsizes
  have hsetting : c.headerTableSize = 0 := congrArg Sizes.setting hsizes
  refine ⟨c, hrun, hsetting, hresp, ?_, ?_⟩
  · unfold EncoderWithin
    omega
  · rw [hreq]
    decide

end HttpConnectionEx
end Sese.Service.Http
