import Sese.Log.AsyncLogger

/-!
# Runs of an asynchronous logger

What the appenders have written, what the thread has in its hands and what waits in the queue and
in the current buffer are together what was accepted, and every buffer has one place.
-/
namespace Sese

open Foundation

def LoopPlace.Final : LoopPlace → Prop
  | .flush _ | .left | .gone => True
  | _ => False

instance : DecidablePred LoopPlace.Final
  | .flush _ | .left | .gone => isTrue trivial
  | .enter | .check | .lock | .wait | .swapped | .writing _ | .recycle => isFalse id

namespace AsyncLogger

def pointers (s : AsyncLogger) : List ℕ :=
  s.currentBuffer :: (s.nextBuffer.toList ++ s.buffer2Ready ++ s.buffer1.toList ++
    s.buffer2.toList ++ s.buffer2_write)

def spares (s : AsyncLogger) : List ℕ :=
  s.nextBuffer.toList ++ (s.buffer1.toList ++ s.buffer2.toList)

/-- The buffers that an appender still writes in this round. -/
def ahead (s : AsyncLogger) (appender : ℕ) : List ℕ :=
  match s.place with
  | .swapped => s.buffer2_write
  | .writing todo | .flush todo => (todo.filter (·.1 = appender)).map Prod.snd
  | _ => []

def behind (s : AsyncLogger) : List ℕ :=
  if s.place.Final then [] else s.buffer2Ready ++ [s.currentBuffer]

/-- What is known of the local variables of the thread. -/
def Locals (s : AsyncLogger) : Prop :=
  match s.place with
  | .enter => s.buffer1 = none ∧ s.buffer2 = none ∧ s.buffer2_write = []
  | .check | .lock | .wait => s.buffer1.isSome ∧ s.buffer2.isSome ∧ s.buffer2_write = []
  | .swapped | .recycle =>
    s.buffer1 = none ∧ s.buffer2_write ≠ [] ∧ (s.buffer2 = none → 2 ≤ s.buffer2_write.length)
  | .writing todo =>
    (s.buffer1 = none ∧ s.buffer2_write ≠ [] ∧ (s.buffer2 = none → 2 ≤ s.buffer2_write.length)) ∧
      ∀ job ∈ todo, job.2 ∈ s.buffer2_write
  | .flush todo => s.buffer2_write = [] ∧ ∀ job ∈ todo, job.2 ∈ s.buffer2Ready
  | .left | .gone => True

/-- What is known of a logger that has accepted `text`, except for the local variables of its thread;
the end `owed` of the text is in no buffer yet. -/
structure Sound (appenders : ℕ) (text owed : Bytes) (s : AsyncLogger) : Prop where
  owned : s.place ≠ .gone → s.buffers.Owned s.pointers
  clean : s.place ≠ .gone → ∀ p ∈ s.spares, s.buffers.get p = some []
  spare : ¬ s.place.Final → s.nextBuffer = none → s.buffer2Ready ≠ []
  shut : s.place.Final → s.isShutdown
  lines : ∀ appender ≤ appenders,
    s.written appender ++ s.buffers.gather (s.ahead appender ++ s.behind) ++ owed = text

theorem filter_jobs_lt (n appender : ℕ) (ps : List ℕ) :
    (((List.range n).flatMap fun appender => ps.map fun p => (appender, p)).filter
      (·.1 = appender)).map Prod.snd = if appender < n then ps else [] := by
  induction n with
  | zero => rfl
  | succ n ih =>
    rw [List.range_succ, List.flatMap_append, List.filter_append, List.map_append, ih]
    by_cases hn : n = appender
    · subst hn
      simp [List.filter_map, Function.comp_def]
    · have hlt : appender < n + 1 ↔ appender < n := by omega
      simp [List.filter_map, Function.comp_def, hn, hlt]

theorem filter_jobs {appenders appender : ℕ} (h : appender ≤ appenders) (ps : List ℕ) :
    ((jobs appenders ps).filter (·.1 = appender)).map Prod.snd = ps := by
  rw [jobs, filter_jobs_lt, if_pos (by omega)]

theorem mem_jobs {appenders : ℕ} {ps : List ℕ} {job : ℕ × ℕ} (h : job ∈ jobs appenders ps) :
    job.2 ∈ ps := by
  simp only [jobs, List.mem_flatMap, List.mem_map] at h
  obtain ⟨appender, -, p, hp, rfl⟩ := h
  exact hp

section Calls

variable {appenders : ℕ} {text owed content : Bytes} {s : AsyncLogger}

theorem ahead_subset (hlocals : s.Locals) (hfinal : ¬ s.place.Final) (appender : ℕ) :
    ∀ p ∈ s.ahead appender, p ∈ s.buffer2_write := by
  intro p hp
  cases hplace : s.place with
  | writing todo =>
    simp only [ahead, hplace] at hp
    simp only [Locals, hplace] at hlocals
    obtain ⟨job, hjob, rfl⟩ := List.mem_map.mp hp
    exact hlocals.2 job (List.mem_of_mem_filter hjob)
  | swapped => simpa [ahead, hplace] using hp
  | flush todo => simp [hplace, LoopPlace.Final] at hfinal
  | _ => simp [ahead, hplace] at hp

theorem place_ne_gone (hfinal : ¬ s.place.Final) : s.place ≠ .gone := by
  intro hgone
  simp [hgone, LoopPlace.Final] at hfinal

theorem Locals.congr {s' : AsyncLogger} (h : s.Locals) (hfinal : ¬ s.place.Final)
    (hplace : s'.place = s.place) (hbuffer1 : s'.buffer1 = s.buffer1)
    (hbuffer2 : s'.buffer2 = s.buffer2) (hwrite : s'.buffer2_write = s.buffer2_write) :
    s'.Locals := by
  unfold Locals at h ⊢
  rw [hplace, hbuffer1, hbuffer2, hwrite]
  revert h hfinal
  cases s.place with
  | flush todo => exact fun _ hfinal => absurd trivial hfinal
  | _ => exact fun h _ => h

theorem behind_eq (hfinal : ¬ s.place.Final) : s.behind = s.buffer2Ready ++ [s.currentBuffer] :=
  if_neg hfinal

namespace Sound

theorem accept (h : Sound appenders text [] s) (content : Bytes) :
    Sound appenders (text ++ content) content s where
  owned := h.owned
  clean := h.clean
  spare := h.spare
  shut := h.shut
  lines appender happender := by
    have hlines := h.lines appender happender
    rw [List.append_nil] at hlines
    rw [hlines]

theorem current_notMem (h : Sound appenders text owed s) (hplace : s.place ≠ .gone) :
    s.currentBuffer ∉ s.nextBuffer.toList ++ s.buffer2Ready ++ s.buffer1.toList ++
      s.buffer2.toList ++ s.buffer2_write :=
  (List.nodup_cons.mp (h.owned hplace).nodup).1

theorem get_currentBuffer (h : Sound appenders text owed s) (hplace : s.place ≠ .gone) :
    ∃ buffer, s.buffers.get s.currentBuffer = some buffer :=
  (h.owned hplace).get_eq (List.mem_cons_self ..)

theorem write (h : Sound appenders text content s) (hlocals : s.Locals) (hfinal : ¬ s.place.Final)
    {buffer : FixedBuilder} (hbuffer : s.buffers.get s.currentBuffer = some buffer)
    (hroom : content.length ≤ buffer.getWriteableSize) :
    ∃ s', s.write content = .ok s' ∧ Sound appenders text [] s' ∧ s'.Locals := by
  have hnot := h.current_notMem (place_ne_gone hfinal)
  simp only [List.mem_append, not_or] at hnot
  refine ⟨{ s with buffers := s.buffers.set s.currentBuffer (buffer.write content) }, ?_, ?_,
    hlocals⟩
  · rw [AsyncLogger.write, deref, hbuffer]
    rfl
  · constructor
    · exact fun hplace => (h.owned hplace).set _ _
    · intro hplace p hp
      dsimp only
      rw [Blocks.set_get_of_ne]
      · exact h.clean hplace p hp
      · rintro rfl
        simp only [spares, List.mem_append] at hp
        tauto
    · exact h.spare
    · exact h.shut
    · intro appender happender
      have hlines := h.lines appender happender
      have hahead : s.currentBuffer ∉ s.ahead appender :=
        fun hmem => hnot.2 (ahead_subset hlocals hfinal appender _ hmem)
      rw [behind_eq hfinal] at hlines
      change s.written appender ++ (s.buffers.set s.currentBuffer _).gather
        (s.ahead appender ++ s.behind) ++ [] = text
      rw [behind_eq hfinal, ← hlines]
      simp only [Blocks.gather_append, Blocks.gather_set_of_notMem _ hahead,
        Blocks.gather_set_of_notMem _ hnot.1.1.1.2, Blocks.gather_singleton hbuffer,
        Blocks.gather_singleton (Blocks.set_get s.buffers s.currentBuffer _), FixedBuilder.write,
        List.take_of_length_le hroom, List.append_assoc, List.append_nil]

theorem useNext (h : Sound appenders text owed s) (hfinal : ¬ s.place.Final) {next : ℕ}
    (hnext : s.nextBuffer = some next) :
    Sound appenders text owed
      (s.queue.useNext next) := by
  have hempty : s.buffers.get next = some [] :=
    h.clean (place_ne_gone hfinal) next (by simp [spares, hnext])
  constructor
  · intro hplace
    apply (h.owned hplace).perm
    rw [List.perm_iff_count]
    intro p
    simp only [pointers, AsyncLogger.useNext, queue, hnext, Option.toList_some, Option.toList_none,
      List.count_cons, List.count_append, List.count_nil]
    omega
  · intro hplace p hp
    apply h.clean hplace p
    simp only [spares, AsyncLogger.useNext, queue, Option.toList_none, List.nil_append] at hp
    exact List.mem_append_right _ hp
  · exact fun _ _ => by simp [AsyncLogger.useNext, queue]
  · exact h.shut
  · intro appender happender
    have hlines := h.lines appender happender
    rw [behind_eq hfinal] at hlines
    change s.written appender ++ s.buffers.gather (s.ahead appender ++
      (if s.place.Final then [] else (s.buffer2Ready ++ [s.currentBuffer]) ++ [next])) ++ owed =
        text
    rw [if_neg hfinal, ← hlines]
    simp only [Blocks.gather_append, Blocks.gather_singleton hempty, List.append_nil]

theorem renew (h : Sound appenders text owed s) (hlocals : s.Locals) (hfinal : ¬ s.place.Final) :
    Sound appenders text owed
      s.queue.renew := by
  have howned := h.owned (place_ne_gone hfinal)
  constructor
  · intro _
    apply (howned.alloc []).perm
    rw [List.perm_iff_count]
    intro p
    simp only [pointers, AsyncLogger.renew, queue, List.count_cons, List.count_append, List.count_nil]
    omega
  · intro hplace p hp
    have hmem : p ∈ s.pointers := by
      simp only [spares, AsyncLogger.renew, queue, List.mem_append] at hp
      simp only [pointers, List.mem_cons, List.mem_append]
      tauto
    change (s.buffers.alloc []).get p = some []
    rw [howned.alloc_get_of_mem [] hmem]
    exact h.clean hplace p hp
  · exact fun _ _ => by simp [AsyncLogger.renew, queue]
  · exact h.shut
  · intro appender happender
    have hlines := h.lines appender happender
    rw [behind_eq hfinal] at hlines
    change s.written appender ++ (s.buffers.alloc []).gather (s.ahead appender ++
      (if s.place.Final then [] else (s.buffer2Ready ++ [s.currentBuffer]) ++ [s.buffers.fresh])) ++
        owed = text
    rw [if_neg hfinal, ← hlines]
    have hsame : (s.buffers.alloc []).gather
        (s.ahead appender ++ (s.buffer2Ready ++ [s.currentBuffer])) =
        s.buffers.gather (s.ahead appender ++ (s.buffer2Ready ++ [s.currentBuffer])) := by
      apply Blocks.gather_congr
      intro p hp
      apply howned.alloc_get_of_mem
      have hahead := ahead_subset hlocals hfinal appender p
      simp only [List.mem_append, List.mem_singleton] at hp
      simp only [pointers, List.mem_cons, List.mem_append]
      tauto
    rw [← List.append_assoc (s.ahead appender), Blocks.gather_append, hsame,
      Blocks.gather_singleton (Blocks.alloc_get s.buffers []), List.append_nil]

theorem turn (h : Sound appenders text content s) (hlocals : s.Locals) (hfinal : ¬ s.place.Final)
    (hlength : content.length < RECORD_BUFFER_SIZE) :
    ∃ s', (match s.nextBuffer with
      | some next => (s.queue.useNext next).write content
      | none => s.queue.renew.write content) = .ok s' ∧ Sound appenders text [] s' ∧ s'.Locals := by
  have hroom : content.length ≤ FixedBuilder.getWriteableSize [] := hlength.le
  split
  next next hnext =>
    have hempty : s.buffers.get next = some [] :=
      h.clean (place_ne_gone hfinal) next (by simp [spares, hnext])
    exact (h.useNext hfinal hnext).write (hlocals.congr hfinal rfl rfl rfl rfl) hfinal hempty hroom
  next hnext =>
    exact (h.renew hlocals hfinal).write (hlocals.congr hfinal rfl rfl rfl rfl) hfinal
      (Blocks.alloc_get s.buffers []) hroom

theorem log (h : Sound appenders text [] s) (hlocals : s.Locals) (hfinal : ¬ s.place.Final)
    (builtInLevel level : Level) (hlength : content.length < RECORD_BUFFER_SIZE) :
    ∃ s', s.log builtInLevel level content = .ok s' ∧
      Sound appenders (text ++ record builtInLevel (.log level content)) [] s' ∧ s'.Locals := by
  obtain ⟨buffer, hbuffer⟩ := h.get_currentBuffer (place_ne_gone hfinal)
  have haccept := h.accept content
  have hderef : s.deref s.currentBuffer = .ok buffer := by
    rw [deref, hbuffer]
    rfl
  have hrecord : record builtInLevel (.log level content) =
      if builtInLevel.number ≤ level.number then content else [] := rfl
  rw [hrecord]
  unfold AsyncLogger.log
  split_ifs with hlevel
  · rw [hderef]
    change ∃ s', (if buffer.getWriteableSize > content.length then _ else _) = _ ∧ _
    split_ifs with hroom
    · exact haccept.write hlocals hfinal hbuffer hroom.le
    · exact haccept.turn hlocals hfinal hlength
  · rw [List.append_nil]
    exact ⟨s, rfl, h, hlocals⟩

theorem dump (h : Sound appenders text [] s) (hlocals : s.Locals) (hfinal : ¬ s.place.Final)
    (hlength : content.length < RECORD_BUFFER_SIZE) (hharmless : s.Harmless (.dump content)) :
    ∃ s', s.dump content = .ok s' ∧ Sound appenders (text ++ content) [] s' ∧ s'.Locals := by
  obtain ⟨buffer, hbuffer⟩ := h.get_currentBuffer (place_ne_gone hfinal)
  have haccept := h.accept content
  have hderef : s.deref s.currentBuffer = .ok buffer := by
    rw [deref, hbuffer]
    rfl
  unfold AsyncLogger.dump
  rw [hderef]
  change ∃ s', (if buffer.getWriteableSize > content.length then _ else _) = _ ∧ _
  split_ifs with hroom
  · exact haccept.write hlocals hfinal hbuffer hroom.le
  · rcases hharmless with hnext | hfits
    · have hturn := haccept.turn hlocals hfinal hlength
      rw [hnext] at hturn ⊢
      exact hturn
    · exact absurd (hfits buffer hderef) hroom

end Sound

end Calls

section Thread

variable {appenders : ℕ} {text : Bytes} {s : AsyncLogger}

theorem freeAll_eq {ps : List ℕ} {buffers : Blocks FixedBuilder}
    (h : s.buffers.freeAll ps = some buffers) : s.freeAll ps = .ok { s with buffers := buffers } := by
  rw [freeAll, h]
  rfl

theorem mem_pointers_of_unwritten (hlocals : s.Locals) (appender : ℕ) :
    ∀ p ∈ s.ahead appender ++ s.behind, p ∈ s.pointers := by
  intro p hp
  have hbehind : p ∈ s.behind → p ∈ s.pointers := by
    intro hp
    unfold behind at hp
    split_ifs at hp
    · cases hp
    · simp only [List.mem_append, List.mem_singleton] at hp
      simp only [pointers, List.mem_cons, List.mem_append]
      tauto
  rcases List.mem_append.mp hp with hahead | hp
  · by_cases hfinal : s.place.Final
    · cases hplace : s.place with
      | flush todo =>
        simp only [ahead, hplace] at hahead
        simp only [Locals, hplace] at hlocals
        obtain ⟨job, hjob, rfl⟩ := List.mem_map.mp hahead
        have hready := hlocals.2 job (List.mem_of_mem_filter hjob)
        simp only [pointers, List.mem_cons, List.mem_append]
        tauto
      | swapped =>
        rw [hplace] at hfinal
        cases hfinal
      | writing todo =>
        rw [hplace] at hfinal
        cases hfinal
      | _ => simp [ahead, hplace] at hahead
    · have hwrite := ahead_subset hlocals hfinal appender p hahead
      simp only [pointers, List.mem_cons, List.mem_append]
      tauto
  · exact hbehind hp

namespace Sound

theorem settled (h : Sound appenders text [] s) (hfinal : ¬ s.place.Final)
    (hahead : ∀ appender, s.ahead appender = []) {appender : ℕ} (happender : appender ≤ appenders) :
    s.written appender ++ s.buffers.gather (s.buffer2Ready ++ [s.currentBuffer]) = text := by
  have hlines := h.lines appender happender
  rwa [behind_eq hfinal, hahead, List.nil_append, List.append_nil] at hlines

theorem enter (h : Sound appenders text [] s) (hlocals : s.Locals) (hplace : s.place = .enter) :
    ∃ s', s.loop appenders = .ok s' ∧ Sound appenders text [] s' ∧ s'.Locals := by
  have hgone : s.place ≠ .gone := by simp [hplace]
  have hfinal : ¬ s.place.Final := by simp [hplace, LoopPlace.Final]
  have hb : s.buffer1 = none ∧ s.buffer2 = none ∧ s.buffer2_write = [] := by
    simpa only [Locals, hplace] using hlocals
  have hfirst := (h.owned hgone).alloc []
  have hget : ∀ p ∈ s.pointers, ((s.buffers.alloc []).alloc []).get p = s.buffers.get p := by
    intro p hp
    rw [hfirst.alloc_get_of_mem [] (List.mem_cons_of_mem _ hp),
      (h.owned hgone).alloc_get_of_mem [] hp]
  refine ⟨_, by rw [loop, hplace], ?_, ?_⟩
  · constructor
    · intro _
      apply (hfirst.alloc []).perm
      rw [List.perm_iff_count]
      intro p
      simp only [pointers, hb, Option.toList_some, Option.toList_none, List.count_cons,
        List.count_append, List.count_nil, Blocks.alloc]
      omega
    · intro _ p hp
      simp only [spares, Option.toList_some, List.mem_append, List.mem_singleton] at hp
      rcases hp with hp | rfl | rfl
      · dsimp only
        rw [hget p (by simp [pointers, hp])]
        exact h.clean hgone p (by simp [spares, hp])
      · dsimp only
        rw [hfirst.alloc_get_of_mem [] (List.mem_cons_self ..), Blocks.alloc_get]
      · exact Blocks.alloc_get (s.buffers.alloc []) []
    · exact fun _ => h.spare hfinal
    · exact False.elim
    · intro appender happender
      have hlines := h.lines appender happender
      rw [← Blocks.gather_congr fun p hp => hget p (mem_pointers_of_unwritten hlocals appender p hp)]
        at hlines
      simp only [ahead, behind, hplace] at hlines ⊢
      exact hlines
  · exact ⟨rfl, rfl, hb.2.2⟩

/-- The thread ends its rounds while the current buffer is empty. -/
theorem check (h : Sound appenders text [] s) (hlocals : s.Locals) (hplace : s.place = .check)
    (hharmless : s.Harmless .loop) :
    ∃ s', s.loop appenders = .ok s' ∧ Sound appenders text [] s' ∧ s'.Locals := by
  have hgone : s.place ≠ .gone := by simp [hplace]
  have hfinal : ¬ s.place.Final := by simp [hplace, LoopPlace.Final]
  have hb : s.buffer1.isSome ∧ s.buffer2.isSome ∧ s.buffer2_write = [] := by
    simpa only [Locals, hplace] using hlocals
  have hsettled := @settled _ _ _ h hfinal fun _ => by rw [ahead, hplace]
  rw [loop, hplace]
  by_cases hshut : s.isShutdown
  · have hempty : s.buffers.get s.currentBuffer = some [] := by
      obtain ⟨buffer, hbuffer⟩ := h.get_currentBuffer hgone
      have hderef := hharmless hplace hshut
      rw [deref, hbuffer] at hderef
      rw [hbuffer]
      exact congrArg some (Except.ok.inj hderef)
    refine ⟨_, if_pos hshut, ⟨fun _ => h.owned hgone, fun _ => h.clean hgone, ?_, fun _ => hshut,
      ?_⟩, hb.2.2, fun job => mem_jobs⟩
    · exact fun hnot => absurd trivial hnot
    · intro appender happender
      change s.written appender ++ s.buffers.gather
        (((jobs appenders s.buffer2Ready).filter (·.1 = appender)).map Prod.snd ++ []) ++ [] = _
      rw [← hsettled happender, filter_jobs happender, Blocks.gather_append, Blocks.gather_append,
        Blocks.gather_singleton hempty, Blocks.gather_nil, List.append_nil]
  · refine ⟨_, if_neg hshut, ⟨fun _ => h.owned hgone, fun _ => h.clean hgone, fun _ => h.spare hfinal,
      False.elim, ?_⟩, hb⟩
    intro appender happender
    rw [← hsettled happender]
    exact List.append_nil _

/-- The critical section takes the queue and the current buffer. -/
theorem swap (h : Sound appenders text [] s) (hlocals : s.Locals)
    (hplace : s.place = .lock ∨ s.place = .wait) :
    ∃ s', s.swap = .ok s' ∧ Sound appenders text [] s' ∧ s'.Locals := by
  have hgone : s.place ≠ .gone := by rcases hplace with hplace | hplace <;> simp [hplace]
  have hfinal : ¬ s.place.Final := by
    rcases hplace with hplace | hplace <;> simp [hplace, LoopPlace.Final]
  have hb : s.buffer1.isSome ∧ s.buffer2.isSome ∧ s.buffer2_write = [] := by
    rcases hplace with hplace | hplace <;> simpa only [Locals, hplace] using hlocals
  have hsettled := @settled _ _ _ h hfinal fun _ => by
    rcases hplace with hplace | hplace <;> rw [ahead, hplace]
  obtain ⟨b1, hb1⟩ := Option.isSome_iff_exists.mp hb.1
  obtain ⟨b2, hb2⟩ := Option.isSome_iff_exists.mp hb.2.1
  have hempty : s.buffers.get b1 = some [] := h.clean hgone b1 (by simp [spares, hb1])
  have hlines : ∀ appender ≤ appenders, s.written appender ++ s.buffers.gather
      ((s.buffer2Ready ++ [s.currentBuffer]) ++ (s.buffer2_write ++ [b1])) ++ [] = text := by
    intro appender happender
    rw [Blocks.gather_append, hb.2.2, List.nil_append, Blocks.gather_singleton hempty,
      List.append_nil, List.append_nil]
    exact hsettled happender
  rw [AsyncLogger.swap, hb1]
  dsimp only
  split
  next hnext =>
    have hready := h.spare hfinal hnext
    refine ⟨_, rfl, ⟨?_, ?_, ?_, False.elim, hlines⟩, ?_⟩
    · intro _
      apply (h.owned hgone).perm
      rw [List.perm_iff_count]
      intro p
      simp only [pointers, hb1, hb2, hb.2.2, hnext, Option.toList_some, Option.toList_none,
        List.count_cons, List.count_append, List.count_nil]
      omega
    · intro _ p hp
      apply h.clean hgone p
      simp only [spares, Option.toList_none, List.append_nil, List.mem_append] at hp ⊢
      tauto
    · exact fun _ hnone => absurd hnone (by simp [hb2])
    · refine ⟨rfl, by simp, fun _ => ?_⟩
      have := List.length_pos_iff.mpr hready
      simp only [List.length_append, List.length_singleton]
      omega
  next next hnext =>
    refine ⟨_, rfl, ⟨?_, ?_, ?_, False.elim, hlines⟩, ?_⟩
    · intro _
      apply (h.owned hgone).perm
      rw [List.perm_iff_count]
      intro p
      simp only [pointers, hb1, hb2, hb.2.2, hnext, Option.toList_some, Option.toList_none,
        List.count_cons, List.count_append, List.count_nil]
      omega
    · intro _ p hp
      apply h.clean hgone p
      simp only [spares, Option.toList_none, List.nil_append, List.mem_append] at hp ⊢
      tauto
    · exact fun _ hnone => absurd hnone (by simp [hnext])
    · exact ⟨rfl, by simp, fun hnone => absurd hnone (by simp [hb2])⟩

theorem swapped (h : Sound appenders text [] s) (hlocals : s.Locals) (hplace : s.place = .swapped)
    (hfew : s.buffer2_write.length ≤ 25) :
    ∃ s', s.loop appenders = .ok s' ∧ Sound appenders text [] s' ∧ s'.Locals := by
  have hgone : s.place ≠ .gone := by simp [hplace]
  have hfinal : ¬ s.place.Final := by simp [hplace, LoopPlace.Final]
  have hb : s.buffer1 = none ∧ s.buffer2_write ≠ [] ∧
      (s.buffer2 = none → 2 ≤ s.buffer2_write.length) := by
    simpa only [Locals, hplace] using hlocals
  rw [loop, hplace]
  dsimp only
  rw [trim, if_neg (by omega)]
  refine ⟨_, rfl, ⟨fun _ => h.owned hgone, fun _ => h.clean hgone, fun _ => h.spare hfinal,
    False.elim, ?_⟩, hb, fun job => mem_jobs⟩
  intro appender happender
  have hlines := h.lines appender happender
  rw [ahead, hplace, behind_eq hfinal] at hlines
  change s.written appender ++ s.buffers.gather
    (((jobs appenders s.buffer2_write).filter (·.1 = appender)).map Prod.snd ++
      (s.buffer2Ready ++ [s.currentBuffer])) ++ [] = _
  rw [filter_jobs happender]
  exact hlines

/-- What an appender has written, and what it still has to write. -/
theorem output_lines {job : ℕ × ℕ} {buffer : FixedBuilder}
    (hbuffer : s.buffers.get job.2 = some buffer) (todo : List (ℕ × ℕ)) (appender : ℕ) :
    Function.update s.written job.1 (s.written job.1 ++ buffer) appender ++
        s.buffers.gather ((todo.filter (·.1 = appender)).map Prod.snd) =
      s.written appender ++
        s.buffers.gather (((job :: todo).filter (·.1 = appender)).map Prod.snd) := by
  by_cases hjob : job.1 = appender
  · subst hjob
    rw [Function.update_self, List.filter_cons_of_pos (by simp), List.map_cons, Blocks.gather_cons,
      hbuffer, List.append_assoc]
    rfl
  · rw [Function.update_of_ne (Ne.symm hjob), List.filter_cons_of_neg (by simpa using hjob)]

theorem writing (h : Sound appenders text [] s) (hlocals : s.Locals) {job : ℕ × ℕ}
    {todo : List (ℕ × ℕ)} (hplace : s.place = .writing (job :: todo)) :
    ∃ s', s.loop appenders = .ok s' ∧ Sound appenders text [] s' ∧ s'.Locals := by
  have hgone : s.place ≠ .gone := by simp [hplace]
  have hfinal : ¬ s.place.Final := by simp [hplace, LoopPlace.Final]
  have hb := hlocals
  simp only [Locals, hplace] at hb
  obtain ⟨hwrite, hjobs⟩ := hb
  have hjob : job.2 ∈ s.pointers := by
    have := hjobs job (List.mem_cons_self ..)
    simp only [pointers, List.mem_cons, List.mem_append]
    tauto
  obtain ⟨buffer, hbuffer⟩ := (h.owned hgone).get_eq hjob
  rw [loop, hplace]
  dsimp only
  rw [output, deref, hbuffer]
  refine ⟨_, rfl, ⟨fun _ => h.owned hgone, fun _ => h.clean hgone, fun _ => h.spare hfinal,
    False.elim, ?_⟩, hwrite, fun job' hjob' => hjobs job' (List.mem_cons_of_mem job hjob')⟩
  intro appender happender
  have hlines := h.lines appender happender
  rw [ahead, hplace, behind_eq hfinal, Blocks.gather_append, ← List.append_assoc] at hlines
  change Function.update s.written job.1 (s.written job.1 ++ buffer) appender ++
    s.buffers.gather ((todo.filter (·.1 = appender)).map Prod.snd ++
      (s.buffer2Ready ++ [s.currentBuffer])) ++ [] = text
  rw [Blocks.gather_append, ← List.append_assoc, output_lines hbuffer]
  exact hlines

theorem flush (h : Sound appenders text [] s) (hlocals : s.Locals) {job : ℕ × ℕ}
    {todo : List (ℕ × ℕ)} (hplace : s.place = .flush (job :: todo)) :
    ∃ s', s.loop appenders = .ok s' ∧ Sound appenders text [] s' ∧ s'.Locals := by
  have hgone : s.place ≠ .gone := by simp [hplace]
  have hfinal : s.place.Final := by simp [hplace, LoopPlace.Final]
  have hb := hlocals
  simp only [Locals, hplace] at hb
  obtain ⟨hwrite, hjobs⟩ := hb
  have hjob : job.2 ∈ s.pointers := by
    have := hjobs job (List.mem_cons_self ..)
    simp only [pointers, List.mem_cons, List.mem_append]
    tauto
  obtain ⟨buffer, hbuffer⟩ := (h.owned hgone).get_eq hjob
  rw [loop, hplace]
  dsimp only
  rw [output, deref, hbuffer]
  refine ⟨_, rfl, ⟨fun _ => h.owned hgone, fun _ => h.clean hgone, fun hnot => absurd trivial hnot,
    fun _ => h.shut hfinal, ?_⟩, hwrite, fun job' hjob' => hjobs job' (List.mem_cons_of_mem job hjob')⟩
  intro appender happender
  have hlines := h.lines appender happender
  rw [ahead, hplace, behind, if_pos hfinal, Blocks.gather_append, ← List.append_assoc] at hlines
  change Function.update s.written job.1 (s.written job.1 ++ buffer) appender ++
    s.buffers.gather ((todo.filter (·.1 = appender)).map Prod.snd ++ []) ++ [] = text
  rw [Blocks.gather_append, ← List.append_assoc, output_lines hbuffer]
  exact hlines

theorem written (h : Sound appenders text [] s) (hlocals : s.Locals) (hplace : s.place = .writing []) :
    ∃ s', s.loop appenders = .ok s' ∧ Sound appenders text [] s' ∧ s'.Locals := by
  have hgone : s.place ≠ .gone := by simp [hplace]
  have hfinal : ¬ s.place.Final := by simp [hplace, LoopPlace.Final]
  have hb := hlocals
  simp only [Locals, hplace] at hb
  rw [loop, hplace]
  refine ⟨_, rfl, ⟨fun _ => h.owned hgone, fun _ => h.clean hgone, fun _ => h.spare hfinal,
    False.elim, ?_⟩, hb.1⟩
  intro appender happender
  have hlines := h.lines appender happender
  rw [ahead, hplace, behind_eq hfinal] at hlines
  exact hlines

theorem reown (h : Sound appenders text [] s) (hplace : s.place = .recycle)
    {buffers : Blocks FixedBuilder} {buffer1 buffer2 : Option ℕ} {buffer2_write : List ℕ}
    (howned : buffers.Owned (pointers { s with
      buffers := buffers, buffer1 := buffer1, buffer2 := buffer2, buffer2_write := buffer2_write }))
    (hget : ∀ p ∈ s.currentBuffer :: (s.nextBuffer.toList ++ s.buffer2Ready),
      buffers.get p = s.buffers.get p)
    (hclean : ∀ p ∈ buffer1.toList ++ buffer2.toList, buffers.get p = some []) :
    Sound appenders text [] { s with
      buffers := buffers, buffer1 := buffer1, buffer2 := buffer2, buffer2_write := buffer2_write } := by
  have hgone : s.place ≠ .gone := by simp [hplace]
  have hfinal : ¬ s.place.Final := by simp [hplace, LoopPlace.Final]
  have hsettled := @settled _ _ _ h hfinal fun _ => by rw [ahead, hplace]
  refine ⟨fun _ => howned, ?_, fun _ => h.spare hfinal, fun hnot => absurd hnot hfinal, ?_⟩
  · intro _ p hp
    rcases List.mem_append.mp hp with hnext | hlocal
    · exact (hget p (List.mem_cons_of_mem _ (List.mem_append_left _ hnext))).trans
        (h.clean hgone p (List.mem_append_left _ hnext))
    · exact hclean p hlocal
  · intro appender happender
    have hsame : buffers.gather (s.buffer2Ready ++ [s.currentBuffer]) =
        s.buffers.gather (s.buffer2Ready ++ [s.currentBuffer]) := by
      apply Blocks.gather_congr
      intro p hp
      apply hget
      simp only [List.mem_append, List.mem_singleton] at hp
      simp only [List.mem_cons, List.mem_append]
      tauto
    dsimp only [ahead, behind]
    rw [if_neg hfinal, hplace, List.nil_append, List.append_nil, hsame]
    exact hsettled happender

theorem trim (h : Sound appenders text [] s) (hplace : s.place = .recycle) :
    ∃ s', s.trim 2 = .ok s' ∧ Sound appenders text [] s' ∧ s'.place = .recycle ∧
      s'.buffer1 = s.buffer1 ∧ s'.buffer2 = s.buffer2 ∧
      s'.buffer2_write.length = min 2 s.buffer2_write.length := by
  have hgone : s.place ≠ .gone := by simp [hplace]
  unfold AsyncLogger.trim
  split_ifs with hmany
  · have hperm : s.pointers.Perm (s.buffer2_write.drop 2 ++
        pointers { s with buffer2_write := s.buffer2_write.take 2 }) := by
      rw [List.perm_iff_count]
      intro p
      have hcount := congrArg (List.count p) (List.take_append_drop 2 s.buffer2_write)
      rw [List.count_append] at hcount
      simp only [pointers, List.count_cons, List.count_append]
      omega
    obtain ⟨m, hfree, hm, hget⟩ := ((h.owned hgone).perm hperm).freeAll
    rw [freeAll_eq hfree]
    refine ⟨_, rfl, h.reown hplace hm ?_ ?_, hplace, rfl, rfl, List.length_take⟩
    · intro p hp
      apply hget
      simp only [List.mem_cons, List.mem_append] at hp
      simp only [pointers, List.mem_cons, List.mem_append]
      tauto
    · intro p hp
      rw [hget p]
      · exact h.clean hgone p (List.mem_append_right _ hp)
      · simp only [List.mem_append] at hp
        simp only [pointers, List.mem_cons, List.mem_append]
        tauto
  · exact ⟨s, rfl, h, hplace, rfl, rfl, by omega⟩

theorem popBack (h : Sound appenders text [] s) (hplace : s.place = .recycle)
    (hwrite : s.buffer2_write ≠ []) :
    ∃ p ps, s.buffer2_write.length = ps.length + 1 ∧
      s.popBack = .ok (p, { s with buffer2_write := ps, buffers := s.buffers.set p [] }) ∧
      (s.buffers.set p []).Owned (p :: pointers { s with buffer2_write := ps }) ∧
      ∀ q ∈ pointers { s with buffer2_write := ps },
        (s.buffers.set p []).get q = s.buffers.get q := by
  have hgone : s.place ≠ .gone := by simp [hplace]
  obtain ⟨ps, p, hps⟩ := (List.eq_nil_or_concat s.buffer2_write).resolve_left hwrite
  have howned : s.buffers.Owned (p :: pointers { s with buffer2_write := ps }) := by
    apply (h.owned hgone).perm
    rw [List.perm_iff_count]
    intro q
    simp only [pointers, hps, List.concat_eq_append, List.count_cons, List.count_append,
      List.count_nil]
    omega
  obtain ⟨buffer, hbuffer⟩ := howned.get_eq (List.mem_cons_self ..)
  refine ⟨p, ps, by simp [hps], ?_, howned.set p [], ?_⟩
  · have hlast : s.buffer2_write.getLast? = some p := by simp [hps]
    have hrest : s.buffer2_write.dropLast = ps := by simp [hps]
    rw [AsyncLogger.popBack, hlast]
    dsimp only
    rw [deref, hbuffer, hrest]
    rfl
  · intro q hq
    apply Blocks.set_get_of_ne
    rintro rfl
    exact (List.nodup_cons.mp howned.nodup).1 hq

theorem takeBuffer1 (h : Sound appenders text [] s) (hplace : s.place = .recycle)
    (hnone : s.buffer1 = none) (hwrite : s.buffer2_write ≠ []) :
    ∃ s', s.takeBuffer1 = .ok s' ∧ Sound appenders text [] s' ∧ s'.place = .recycle ∧
      s'.buffer1.isSome ∧ s'.buffer2 = s.buffer2 ∧
      s.buffer2_write.length = s'.buffer2_write.length + 1 := by
  have hgone : s.place ≠ .gone := by simp [hplace]
  obtain ⟨p, ps, hlength, hpop, howned, hget⟩ := h.popBack hplace hwrite
  rw [AsyncLogger.takeBuffer1, hnone]
  dsimp only
  rw [hpop]
  refine ⟨_, rfl, h.reown hplace (howned.perm ?_) ?_ ?_, hplace, rfl, rfl, hlength⟩
  · rw [List.perm_iff_count]
    intro q
    simp only [pointers, hnone, Option.toList_some, Option.toList_none, List.count_cons,
      List.count_append, List.count_nil]
    omega
  · intro q hq
    apply hget
    simp only [List.mem_cons, List.mem_append] at hq
    simp only [pointers, List.mem_cons, List.mem_append]
    tauto
  · intro q hq
    rcases List.mem_append.mp hq with hq | hq
    · obtain rfl : q = p := by simpa using hq
      exact Blocks.set_get s.buffers q []
    · rw [hget q (by simp only [pointers, List.mem_cons, List.mem_append]; tauto)]
      exact h.clean hgone q (by simp only [spares, List.mem_append]; tauto)

theorem takeBuffer2 (h : Sound appenders text [] s) (hplace : s.place = .recycle)
    (hwrite : s.buffer2 = none → s.buffer2_write ≠ []) :
    ∃ s', s.takeBuffer2 = .ok s' ∧ Sound appenders text [] s' ∧ s'.place = .recycle ∧
      s'.buffer1 = s.buffer1 ∧ s'.buffer2.isSome := by
  have hgone : s.place ≠ .gone := by simp [hplace]
  unfold AsyncLogger.takeBuffer2
  split
  next b2 hsome => exact ⟨s, rfl, h, hplace, rfl, by simp [hsome]⟩
  next hnone =>
    obtain ⟨p, ps, -, hpop, howned, hget⟩ := h.popBack hplace (hwrite hnone)
    rw [hpop]
    refine ⟨_, rfl, h.reown hplace (howned.perm ?_) ?_ ?_, hplace, rfl, rfl⟩
    · rw [List.perm_iff_count]
      intro q
      simp only [pointers, hnone, Option.toList_some, Option.toList_none, List.count_cons,
        List.count_append, List.count_nil]
      omega
    · intro q hq
      apply hget
      simp only [List.mem_cons, List.mem_append] at hq
      simp only [pointers, List.mem_cons, List.mem_append]
      tauto
    · intro q hq
      rcases List.mem_append.mp hq with hq | hq
      · rw [hget q (by simp only [pointers, List.mem_cons, List.mem_append]; tauto)]
        exact h.clean hgone q (by simp only [spares, List.mem_append]; tauto)
      · obtain rfl : q = p := by simpa using hq
        exact Blocks.set_get s.buffers q []

theorem recycle (h : Sound appenders text [] s) (hlocals : s.Locals) (hplace : s.place = .recycle) :
    ∃ s', s.loop appenders = .ok s' ∧ Sound appenders text [] s' ∧ s'.Locals := by
  have hb : s.buffer1 = none ∧ s.buffer2_write ≠ [] ∧
      (s.buffer2 = none → 2 ≤ s.buffer2_write.length) := by
    simpa only [Locals, hplace] using hlocals
  have hpos := List.length_pos_iff.mpr hb.2.1
  obtain ⟨s₁, htrim, hs₁, hplace₁, hbuffer1, hbuffer2, hlength⟩ := h.trim hplace
  obtain ⟨s₂, htake1, hs₂, hplace₂, hsome1, hbuffer2', hlength'⟩ :=
    hs₁.takeBuffer1 hplace₁ (hbuffer1.trans hb.1) (List.ne_nil_of_length_pos (by omega))
  obtain ⟨s₃, htake2, hs₃, hplace₃, hbuffer1', hsome2⟩ := hs₂.takeBuffer2 hplace₂ (by
    intro hnone
    have htwo := hb.2.2 (hbuffer2.symm.trans (hbuffer2'.symm.trans hnone))
    exact List.ne_nil_of_length_pos (by omega))
  have hgone : s₃.place ≠ .gone := by simp [hplace₃]
  have hfinal : ¬ s₃.place.Final := by simp [hplace₃, LoopPlace.Final]
  have hsettled := @settled _ _ _ hs₃ hfinal fun _ => by rw [ahead, hplace₃]
  rw [loop, hplace]
  dsimp only
  rw [AsyncLogger.recycle, htrim]
  change ∃ s', (s₁.takeBuffer1 >>= _) = _ ∧ _
  rw [htake1]
  change ∃ s', (s₂.takeBuffer2 >>= _) = _ ∧ _
  rw [htake2]
  refine ⟨_, rfl, ⟨?_, fun _ => hs₃.clean hgone, fun _ => hs₃.spare hfinal, False.elim, ?_⟩,
    hbuffer1' ▸ hsome1, hsome2, rfl⟩
  · intro _
    apply (hs₃.owned hgone).sublist
    exact List.Sublist.cons_cons _ ((List.Sublist.refl _).append (List.nil_sublist _))
  · intro appender happender
    rw [← hsettled happender]
    exact List.append_nil _

theorem leave (h : Sound appenders text [] s) (hlocals : s.Locals) (hplace : s.place = .flush []) :
    ∃ s', s.loop appenders = .ok s' ∧ Sound appenders text [] s' ∧ s'.Locals := by
  have hgone : s.place ≠ .gone := by simp [hplace]
  have hfinal : s.place.Final := by simp [hplace, LoopPlace.Final]
  have hwrite : s.buffer2_write = [] := by
    simp only [Locals, hplace] at hlocals
    exact hlocals.1
  have hperm : s.pointers.Perm (s.buffer2Ready ++ ((s.buffer1.toList ++ s.buffer2.toList) ++
      s.currentBuffer :: s.nextBuffer.toList)) := by
    rw [List.perm_iff_count]
    intro p
    simp only [pointers, hwrite, List.count_cons, List.count_append, List.count_nil]
    omega
  obtain ⟨m, hfree, hm, hget⟩ := ((h.owned hgone).perm hperm).freeAll
  obtain ⟨m', hfree', hm', hget'⟩ := hm.freeAll
  rw [loop, hplace]
  dsimp only
  rw [freeAll_eq hfree]
  change ∃ s', ({ s with buffers := m, buffer2Ready := [] }.freeAll
    (s.buffer1.toList ++ s.buffer2.toList) >>= _) = _ ∧ _
  rw [freeAll_eq hfree']
  refine ⟨_, rfl, ⟨?_, ?_, fun hnot => absurd trivial hnot, fun _ => h.shut hfinal, ?_⟩, trivial⟩
  · intro _
    simpa [pointers, hwrite] using hm'
  · intro _ p hp
    have hnext : p ∈ s.nextBuffer.toList := by simpa [spares] using hp
    dsimp only
    rw [hget' p (List.mem_cons_of_mem _ hnext),
      hget p (List.mem_append_right _ (List.mem_cons_of_mem _ hnext))]
    exact h.clean hgone p (List.mem_append_left _ hnext)
  · intro appender happender
    have hlines := h.lines appender happender
    rw [ahead, hplace, behind, if_pos hfinal] at hlines
    exact hlines

theorem destroy (h : Sound appenders text [] s) (hplace : s.place = .left) (builtInLevel : Level) :
    ∃ s', s.step builtInLevel appenders .destroy = .ok s' ∧ Sound appenders text [] s' ∧ s'.Locals := by
  have hgone : s.place ≠ .gone := by simp [hplace]
  have hfinal : s.place.Final := by simp [hplace, LoopPlace.Final]
  have hperm : s.pointers.Perm ((s.currentBuffer :: s.nextBuffer.toList) ++
      (s.buffer2Ready ++ s.buffer1.toList ++ s.buffer2.toList ++ s.buffer2_write)) := by
    rw [List.perm_iff_count]
    intro p
    simp only [pointers, List.count_cons, List.count_append]
    omega
  obtain ⟨m, hfree, -, -⟩ := ((h.owned hgone).perm hperm).freeAll
  rw [AsyncLogger.step, freeAll_eq hfree]
  refine ⟨_, rfl, ⟨fun hnot => absurd rfl hnot, fun hnot => absurd rfl hnot,
    fun hnot => absurd trivial hnot, fun _ => h.shut hfinal, ?_⟩, trivial⟩
  intro appender happender
  have hlines := h.lines appender happender
  rw [ahead, hplace, behind, if_pos hfinal] at hlines
  exact hlines

theorem shutdown (h : Sound appenders text [] s) (hlocals : s.Locals) (builtInLevel : Level) :
    ∃ s', s.step builtInLevel appenders .shutdown = .ok s' ∧ Sound appenders text [] s' ∧ s'.Locals :=
  ⟨_, rfl, ⟨h.owned, h.clean, h.spare, fun _ => rfl, h.lines⟩, hlocals⟩

theorem loop (h : Sound appenders text [] s) (hlocals : s.Locals) (hpossible : s.Possible .loop)
    (hharmless : s.Harmless .loop) :
    ∃ s', s.loop appenders = .ok s' ∧ Sound appenders text [] s' ∧ s'.Locals := by
  obtain ⟨hleft, hgone, hfew⟩ := hpossible
  cases hplace : s.place with
  | enter => exact h.enter hlocals hplace
  | check => exact h.check hlocals hplace hharmless
  | lock =>
    have hfinal : ¬ s.place.Final := by simp [hplace, LoopPlace.Final]
    have hb : s.buffer1.isSome ∧ s.buffer2.isSome ∧ s.buffer2_write = [] := by
      simpa only [Locals, hplace] using hlocals
    have hsettled := @settled _ _ _ h hfinal fun _ => by rw [ahead, hplace]
    rw [AsyncLogger.loop, hplace]
    dsimp only
    split_ifs with hempty
    · refine ⟨_, rfl, ⟨fun _ => h.owned hgone, fun _ => h.clean hgone, fun _ => h.spare hfinal,
        False.elim, ?_⟩, hb⟩
      intro appender happender
      rw [← hsettled happender]
      exact List.append_nil _
    · exact h.swap hlocals (.inl hplace)
  | wait =>
    rw [AsyncLogger.loop, hplace]
    exact h.swap hlocals (.inr hplace)
  | swapped => exact h.swapped hlocals hplace (hfew hplace)
  | writing todo =>
    cases todo with
    | nil => exact h.written hlocals hplace
    | cons job todo => exact h.writing hlocals hplace
  | recycle => exact h.recycle hlocals hplace
  | flush todo =>
    cases todo with
    | nil => exact h.leave hlocals hplace
    | cons job todo => exact h.flush hlocals hplace
  | left => exact absurd hplace hleft
  | gone => exact absurd hplace hgone

end Sound

end Thread

variable {appenders : ℕ} {text : Bytes} {s : AsyncLogger}

theorem sound_create : Sound appenders [] [] create := by
  have hempty : Blocks.Owned ({} : Blocks FixedBuilder) [] := ⟨List.nodup_nil, by simp, by simp⟩
  refine ⟨fun _ => ?_, ?_, ?_, False.elim, fun _ _ => rfl⟩
  · exact ((hempty.alloc []).alloc []).perm (List.Perm.swap 0 1 [])
  · intro _ p hp
    obtain rfl : p = 1 := by simpa [spares, create] using hp
    rfl
  · exact fun _ hnone => by cases hnone

theorem Sound.step (h : Sound appenders text [] s) (hlocals : s.Locals) (builtInLevel : Level)
    {e : LoggerEvent} (hpossible : s.Possible e) (hharmless : s.Harmless e) :
    ∃ s', s.step builtInLevel appenders e = .ok s' ∧
      Sound appenders (text ++ record builtInLevel e) [] s' ∧ s'.Locals := by
  have hrunning : s.isShutdown = false → ¬ s.place.Final := by
    intro hshut hfinal
    have := h.shut hfinal
    simp [hshut] at this
  cases e with
  | log level content =>
    exact h.log hlocals (hrunning hpossible.1) builtInLevel level hpossible.2
  | dump content => exact h.dump hlocals (hrunning hpossible.1) hpossible.2 hharmless
  | loop =>
    rw [record, List.append_nil]
    exact h.loop hlocals hpossible hharmless
  | shutdown =>
    rw [record, List.append_nil]
    exact h.shutdown hlocals builtInLevel
  | destroy =>
    rw [record, List.append_nil]
    exact h.destroy hpossible.2 builtInLevel

/-- What is known after a run whose steps do no harm. -/
theorem sound_of_run {builtInLevel : Level} {es : List LoggerEvent}
    (hrun : RunWhere (step builtInLevel appenders) (fun s e => s.Possible e ∧ s.Harmless e)
      create es s) : Sound appenders (accepted builtInLevel es) [] s ∧ s.Locals := by
  apply hrun.invariant_events
    (fun es s => Sound appenders (accepted builtInLevel es) [] s ∧ s.Locals)
  · exact ⟨sound_create, rfl, rfl, rfl⟩
  · rintro es s e t ⟨hsound, hlocals⟩ ⟨hpossible, hharmless⟩ hstep
    obtain ⟨t', hstep', ht⟩ := hsound.step hlocals builtInLevel hpossible hharmless
    obtain rfl := Except.ok.inj (hstep'.symm.trans hstep)
    rw [accepted, List.flatMap_append, List.flatMap_singleton]
    exact ht

/-- Asynchronous logging loses and repeats nothing in a run whose steps do no harm: no step that
can come next uses a buffer that is not there, no two places have the same buffer, and every
appender has written the first records that were accepted, and all of them in the end. -/
theorem writes_accepted {builtInLevel : Level} {es : List LoggerEvent}
    (hrun : RunWhere (step builtInLevel appenders) (fun s e => s.Possible e ∧ s.Harmless e)
      create es s) :
    (∀ e, s.Possible e → s.Harmless e → ∃ s', step builtInLevel appenders s e = .ok s') ∧
    (s.place ≠ .gone → s.pointers.Nodup ∧ ∀ p ∈ s.pointers, (s.buffers.get p).isSome) ∧
    (∀ appender ≤ appenders, s.written appender <+: accepted builtInLevel es) ∧
    (s.place = .left ∨ s.place = .gone → ∀ appender ≤ appenders,
      s.written appender = accepted builtInLevel es) := by
  obtain ⟨hsound, hlocals⟩ := sound_of_run hrun
  refine ⟨?_, ?_, ?_, ?_⟩
  · intro e hpossible hharmless
    obtain ⟨s', hstep, -⟩ := hsound.step hlocals builtInLevel hpossible hharmless
    exact ⟨s', hstep⟩
  · exact fun hplace => ⟨(hsound.owned hplace).nodup, (hsound.owned hplace).live⟩
  · intro appender happender
    have hlines := hsound.lines appender happender
    rw [List.append_nil] at hlines
    exact ⟨_, hlines⟩
  · intro hplace appender happender
    have hlines := hsound.lines appender happender
    have hfinal : s.place.Final := by
      rcases hplace with hplace | hplace <;> simp [hplace, LoopPlace.Final]
    have hahead : s.ahead appender = [] := by
      rcases hplace with hplace | hplace <;> rw [ahead, hplace]
    rwa [hahead, behind, if_pos hfinal, List.append_nil, List.append_nil, Blocks.gather_nil,
      List.append_nil] at hlines

theorem possible_loop (h : s.place ≠ .left ∧ s.place ≠ .gone)
    (hfew : s.buffer2_write.length ≤ 25) : s.Possible .loop :=
  ⟨h.1, h.2, fun _ => hfew⟩

/-- A record that is logged before the first round, and written in it. -/
theorem writes_accepted_sample :
    ∃ s, RunWhere (step .debug 0) (fun s e => s.Possible e ∧ s.Harmless e) create
        [.log .err [65], .loop, .loop, .loop, .loop, .loop, .loop] s ∧
      s.written 0 <+: accepted .debug [.log .err [65], .loop, .loop, .loop, .loop, .loop, .loop] ∧
      s.written 0 = [65] := by
  obtain ⟨s, hrun, hwritten⟩ : ∃ s, RunWhere (step .debug 0)
      (fun s e => s.Possible e ∧ s.Harmless e) create
      [.log .err [65], .loop, .loop, .loop, .loop, .loop, .loop] s ∧ s.written 0 = [65] :=
    ⟨_, .cons ⟨⟨rfl, by decide⟩, trivial⟩ rfl <| -- log
      .cons ⟨possible_loop (by decide) (by decide), fun h => by cases h⟩ rfl <| -- enter
      .cons ⟨possible_loop (by decide) (by decide), fun _ h => by cases h⟩ rfl <| -- check
      .cons ⟨possible_loop (by decide) (by decide), fun h => by cases h⟩ rfl <| -- lock
      .cons ⟨possible_loop (by decide) (by decide), fun h => by cases h⟩ rfl <| -- wait
      .cons ⟨possible_loop (by decide) (by decide), fun h => by cases h⟩ rfl <| -- swapped
      .cons ⟨possible_loop (by decide) (by decide), fun h => by cases h⟩ rfl <| .nil _, rfl⟩
  exact ⟨s, hrun, (writes_accepted hrun).2.2.1 0 le_rfl, hwritten⟩

theorem dump_full {data : Bytes} (h : data.length = 4095) (content : UInt8) :
    ∃ s, create.dump data = .ok s ∧ s.isShutdown = false ∧
      ∃ s', s.dump [content] = .ok s' ∧ s'.buffer2Ready = [s'.currentBuffer] := by
  have hroom : data.length < FixedBuilder.getWriteableSize [] := by
    rw [h]
    decide
  have hfull : ¬ FixedBuilder.getWriteableSize (FixedBuilder.write [] data) > 1 := by
    rw [FixedBuilder.write, List.take_of_length_le hroom.le, FixedBuilder.getWriteableSize,
      List.nil_append, h]
    decide
  refine ⟨_, if_pos hroom, rfl, _, if_neg hfull, rfl⟩

/-- A record that is logged before the thread looks at `isShutdown` for the last time is lost, and
so is one that is dumped when the current buffer is full; that buffer is queued and still used. -/
theorem loses_records :
    (∃ s, RunWhere (step .debug 0) Possible create
      [.log .err [65], .loop, .shutdown, .loop, .loop, .destroy] s ∧
      s.place = .gone ∧ s.written 0 = [] ∧
      accepted .debug [.log .err [65], .loop, .shutdown, .loop, .loop, .destroy] = [65]) ∧
    ∃ s, RunWhere (step .debug 0) Possible create
      [.dump (List.replicate 4095 65), .dump [65]] s ∧ s.buffer2Ready = [s.currentBuffer] := by
  constructor
  · exact ⟨_, .cons ⟨rfl, by decide⟩ rfl <| -- log
      .cons (possible_loop (by decide) (by decide)) rfl <| -- enter
      .cons rfl rfl <| -- shutdown
      .cons (possible_loop (by decide) (by decide)) rfl <| -- check
      .cons (possible_loop (by decide) (by decide)) rfl <| -- flush
      .cons ⟨rfl, rfl⟩ rfl <| .nil _, rfl, rfl, rfl⟩
  · have hlength : (List.replicate 4095 (65 : UInt8)).length = 4095 := List.length_replicate
    obtain ⟨s, hfirst, hshut, s', hsecond, hready⟩ := dump_full hlength 65
    refine ⟨s', .cons ⟨rfl, ?_⟩ hfirst <| .cons ⟨hshut, by decide⟩ hsecond <| .nil _, hready⟩
    rw [hlength]
    decide

end AsyncLogger
end Sese
