import Mathlib.Data.List.TakeWhile
import Sese.Io.BufferedStream
import Sese.Io.ByteQueue

/-!
# Reading characters and lines

`BaseStreamReader<char>` over a source that may give less than it is asked for. Its cache is a
byte buffer; the character that makes `read` fill it stays there, and `readLine` empties it
behind a line.
-/
namespace Sese.Io

open Foundation

structure BaseStreamReader (σ : Type) where
  sourceStream : σ
  bufferStream : AbstractByteBuffer

namespace BaseStreamReader

variable {σ : Type} [InputStream σ]

def new (source : σ) : BaseStreamReader σ := ⟨source, .new 1024 1024⟩

/-- `preRead`: `len`, and the reader. -/
def preRead (r : BaseStreamReader σ) : Except Fault (ℕ × BaseStreamReader σ) := do
  let (buffer, source) ← InputStream.read r.sourceStream 1024
  if 0 < buffer.length then do
    let (_, stream) ← r.bufferStream.write buffer
    return (buffer.length, ⟨source, stream⟩)
  else return (0, { r with sourceStream := source })

/-- `read`: the result, what is in `ch` afterwards, and the reader. -/
def read (r : BaseStreamReader σ) (ch : UInt8) : Except Fault ((Bool × UInt8) × BaseStreamReader σ) := do
  let (got, stream) ← r.bufferStream.read 1
  let r := { r with bufferStream := stream }
  match got with
  | [] => do
    let (len, r) ← r.preRead
    -- the cache is filled, and `ch` is as before
    return ((len ≠ 0, ch), r)
  | c :: _ => return ((true, c), r)

/-- `ch == '\r' || ch == '\n'`. -/
def isBreak (ch : UInt8) : Bool := ch = 13 ∨ ch = 10

/-- The loop of `readLine`. -/
def lineLoop : ℕ → Bytes → UInt8 → BaseStreamReader σ → Except Fault (Bytes × BaseStreamReader σ)
  | 0, _, _, _ => .error .endlessLoop
  | fuel + 1, string, ch, r => do
    let ((more, ch), r) ← r.read ch
    if !more then return (string, r)
    else if isBreak ch then
      if string ≠ [] then return (string, r) else lineLoop fuel string ch r
    else lineLoop fuel (string ++ [ch]) ch r

/-- `readLine`. A pass of the loop takes an octet of the cache, fills the cache or is the last one;
`ch` does not matter before the first pass, which finds an octet in the cache. -/
def readLine (r : BaseStreamReader σ) : Except Fault (Bytes × BaseStreamReader σ) := do
  let can_read_size ← r.bufferStream.getReadableSize
  let (len, r) ← if can_read_size = 0 then r.preRead else .ok (0, r)
  let can_read_size := can_read_size + len
  let (string, r) ←
    if can_read_size > 0 then
      lineLoop (can_read_size + 2 * InputStream.left r.sourceStream + 1) [] 0 r
    else .ok ([], r)
  return (string, { r with bufferStream := r.bufferStream.freeCapacity.2 })

/-- `ch` is what the variable of the caller has before. -/
inductive Call
  | read (ch : UInt8)
  | readLine
  deriving DecidableEq

inductive Answer
  | char (ch : Option UInt8)
  | line (string : Bytes)
  deriving DecidableEq

def call (r : BaseStreamReader σ) : Call → Except Fault (Answer × BaseStreamReader σ)
  | .read ch => do
    let ((more, ch), r) ← r.read ch
    return (.char (if more then some ch else none), r)
  | .readLine => do
    let (string, r) ← r.readLine
    return (.line string, r)

/-- The next line that is not empty, and what is behind its end. -/
def nextLine (u : Bytes) : Bytes × Bytes :=
  let u := u.dropWhile isBreak
  (u.takeWhile (!isBreak ·), (u.dropWhile (!isBreak ·)).drop 1)

def answer (u : Bytes) : Call → Answer
  | .read _ => .char u.head?
  | .readLine => .line (nextLine u).1

def next (u : Bytes) : Call → Bytes
  | .read _ => u.tail
  | .readLine => (nextLine u).2

def cached (r : BaseStreamReader σ) : Bytes :=
  match r.bufferStream.getReadableSize >>= r.bufferStream.peek with
  | .ok src => src
  | .error _ => []

/-- A line comes whole out of the cache: nothing but line breaks is in front of a refill, and the
octets from the first one of the line to the one that ends it are the rest of the cache; or the
source ends with them. -/
inductive Whole : Bytes → σ → Prop
  | refilled {cache got : Bytes} {source source' : σ} :
      (∀ c ∈ cache, isBreak c) → InputStream.read source 1024 = .ok (got, source') → got ≠ [] →
        Whole got source' → Whole cache source
  | ended {cache : Bytes} {source source' : σ} :
      (∀ c ∈ cache, isBreak c) → InputStream.read source 1024 = .ok ([], source') → Whole cache source
  | broken {breaks line : Bytes} {c : UInt8} {source : σ} :
      (∀ c ∈ breaks, isBreak c) → (∀ c ∈ line, ¬ isBreak c) → line ≠ [] → isBreak c →
        Whole (breaks ++ (line ++ [c])) source
  | exhausted {breaks line : Bytes} {source source' : σ} :
      (∀ c ∈ breaks, isBreak c) → (∀ c ∈ line, ¬ isBreak c) → line ≠ [] →
        InputStream.read source 1024 = .ok ([], source') → Whole (breaks ++ line) source

/-- A character is read while there is one in the cache, or at the end of the source. -/
def Sound (r : BaseStreamReader σ) : Call → Prop
  | .read _ => r.cached ≠ [] ∨ ∃ source, InputStream.read r.sourceStream 1024 = .ok ([], source)
  | .readLine => Whole r.cached r.sourceStream

/-- The cache has the octets `cache`, and the source the octets `rest`. -/
structure Keeps (Holds : σ → Bytes → Prop) (r : BaseStreamReader σ) (cache rest : Bytes) : Prop where
  buffer : ∃ q, r.bufferStream.Represents q ∧ q.unread = cache
  source : Holds r.sourceStream rest

/-- What is still to be read is in the cache and in the source. -/
def Left (Holds : σ → Bytes → Prop) (r : BaseStreamReader σ) (u : Bytes) : Prop :=
  ∃ cache rest, Keeps Holds r cache rest ∧ cache ++ rest = u

variable {Holds : σ → Bytes → Prop} {r : BaseStreamReader σ} {cache rest : Bytes}

omit [InputStream σ] in
theorem Keeps.cached_eq (h : Keeps Holds r cache rest) : r.cached = cache := by
  obtain ⟨q, hq, rfl⟩ := h.buffer
  rw [cached, hq.getReadableSize_eq, ok_bind, hq.peek_eq, List.take_length]

omit [InputStream σ] in
theorem new_keeps {source : σ} (h : Holds source rest) : Keeps Holds (new source) [] rest where
  buffer := ⟨.empty, AbstractByteBuffer.new_represents 1024 (by norm_num), rfl⟩
  source := h

theorem trickles_unique (hsource : Trickles Holds) {source : σ} {u v : Bytes} (hu : Holds source u)
    (hv : Holds source v) : u = v := by
  induction hn : u.length using Nat.strong_induction_on generalizing source u v with
  | _ n ih =>
    obtain ⟨got, u', source', rfl, hread, -, hend, hu'⟩ := hsource hu Nat.one_pos
    obtain ⟨got', v', source'', rfl, hread', -, hend', hv'⟩ := hsource hv Nat.one_pos
    obtain ⟨rfl, rfl⟩ := Prod.mk.inj (Except.ok.inj (hread.symm.trans hread'))
    by_cases hgot : got = []
    · rw [hend hgot, hend' hgot]
    · have hlen := List.length_pos_iff.mpr hgot
      rw [ih u'.length (by rw [← hn, List.length_append]; omega) hu' hv' rfl]

theorem Left.unique (hsource : Trickles Holds) {u v : Bytes} (hu : Left Holds r u)
    (hv : Left Holds r v) : u = v := by
  obtain ⟨cache, rest, hr, rfl⟩ := hu
  obtain ⟨cache', rest', hr', rfl⟩ := hv
  rw [← hr.cached_eq, ← hr'.cached_eq, trickles_unique hsource hr.source hr'.source]

/-- The cache is filled; the source gives nothing only at its end. -/
theorem Keeps.preRead_eq (hsource : Trickles Holds) (h : Keeps Holds r cache rest) :
    ∃ got rest' r', rest = got ++ rest' ∧ r.preRead = .ok (got.length, r') ∧
      Keeps Holds r' (cache ++ got) rest' ∧ (got = [] → rest = []) ∧
      InputStream.read r.sourceStream 1024 = .ok (got, r'.sourceStream) := by
  obtain ⟨q, hq, rfl⟩ := h.buffer
  obtain ⟨got, rest', source', rfl, hread, -, hend, hrest'⟩ :=
    hsource h.source (by norm_num : 0 < 1024)
  by_cases hgot : got = []
  · subst hgot
    refine ⟨[], rest', { r with sourceStream := source' }, rfl, ?_, ⟨⟨q, hq, ?_⟩, hrest'⟩, hend, hread⟩
    · rw [preRead, hread, ok_bind]
      rfl
    · rw [List.append_nil]
  · obtain ⟨stream, hwrite, hq'⟩ := hq.write_eq got
    have hlen := List.length_pos_iff.mpr hgot
    refine ⟨got, rest', ⟨source', stream⟩, rfl, ?_, ⟨⟨_, hq', ?_⟩, hrest'⟩, hend, hread⟩
    · rw [preRead, hread, ok_bind]
      dsimp only
      rw [if_pos hlen, hwrite]
      rfl
    · exact List.drop_append_of_le_length q.cursor_le

theorem Keeps.read_cached {c : UInt8} (h : Keeps Holds r (c :: cache) rest) :
    ∃ r', Keeps Holds r' cache rest ∧ r'.sourceStream = r.sourceStream ∧
      ∀ ch, r.read ch = .ok ((true, c), r') := by
  obtain ⟨q, hq, hunread⟩ := h.buffer
  obtain ⟨stream, hread, hq'⟩ := hq.read_eq 1
  refine ⟨{ r with bufferStream := stream }, ⟨⟨_, hq', ?_⟩, h.source⟩, rfl, ?_⟩
  · rw [CursorQueue.unread_advance, hunread]
    rfl
  · intro ch
    rw [hunread] at hread
    rw [read, hread]
    rfl

theorem Keeps.read_refill (hsource : Trickles Holds) (h : Keeps Holds r [] rest) :
    ∃ got rest' r', rest = got ++ rest' ∧ Keeps Holds r' got rest' ∧ (got = [] → rest = []) ∧
      InputStream.read r.sourceStream 1024 = .ok (got, r'.sourceStream) ∧
      ∀ ch, r.read ch = .ok ((got ≠ [], ch), r') := by
  obtain ⟨q, hq, hunread⟩ := h.buffer
  obtain ⟨stream, hread, hq'⟩ := hq.read_eq 1
  have hempty : Keeps Holds { r with bufferStream := stream } [] rest := by
    refine ⟨⟨_, hq', ?_⟩, h.source⟩
    rw [CursorQueue.unread_advance, hunread]
    rfl
  obtain ⟨got, rest', r', heq, hpre, hkeeps, hend, hfill⟩ := hempty.preRead_eq hsource
  refine ⟨got, rest', r', heq, hkeeps, hend, hfill, ?_⟩
  intro ch
  rw [hunread] at hread
  rw [read, hread, ok_bind]
  dsimp only [List.take_nil]
  rw [hpre]
  cases got <;> rfl

theorem Keeps.lineLoop_cached {c : UInt8} (h : Keeps Holds r (c :: cache) rest) :
    ∃ r', Keeps Holds r' cache rest ∧ r'.sourceStream = r.sourceStream ∧
      ∀ fuel string ch, lineLoop (fuel + 1) string ch r =
        if isBreak c then if string ≠ [] then .ok (string, r') else lineLoop fuel string c r'
        else lineLoop fuel (string ++ [c]) c r' := by
  obtain ⟨r', hkeeps, hsame, hread⟩ := h.read_cached
  refine ⟨r', hkeeps, hsame, fun fuel string ch => ?_⟩
  rw [lineLoop, hread]
  rfl

/-- A pass that fills the cache takes the last character for the second time. -/
theorem Keeps.lineLoop_refill (hsource : Trickles Holds) (h : Keeps Holds r [] rest) :
    ∃ got rest' r', rest = got ++ rest' ∧ Keeps Holds r' got rest' ∧ (got = [] → rest = []) ∧
      InputStream.read r.sourceStream 1024 = .ok (got, r'.sourceStream) ∧
      ∀ fuel string ch, lineLoop (fuel + 1) string ch r =
        if got = [] then .ok (string, r')
        else if isBreak ch then if string ≠ [] then .ok (string, r') else lineLoop fuel string ch r'
        else lineLoop fuel (string ++ [ch]) ch r' := by
  obtain ⟨got, rest', r', heq, hkeeps, hend, hfill, hread⟩ := h.read_refill hsource
  refine ⟨got, rest', r', heq, hkeeps, hend, hfill, fun fuel string ch => ?_⟩
  rw [lineLoop, hread]
  cases got <;> rfl

theorem Keeps.lineLoop_breaks {breaks : Bytes} (hbreaks : ∀ c ∈ breaks, isBreak c)
    (h : Keeps Holds r (breaks ++ cache) rest) :
    ∃ r', Keeps Holds r' cache rest ∧ r'.sourceStream = r.sourceStream ∧
      ∀ fuel ch, ∃ ch', (isBreak ch ∨ breaks ≠ [] → isBreak ch') ∧
        lineLoop (breaks.length + fuel) [] ch r = lineLoop fuel [] ch' r' := by
  induction breaks generalizing r with
  | nil => exact ⟨r, h, rfl, fun fuel ch => ⟨ch, by simp, by simp⟩⟩
  | cons c breaks ih =>
    obtain ⟨r₁, h₁, hsame₁, hloop₁⟩ := h.lineLoop_cached
    obtain ⟨r', h', hsame', hloop'⟩ := ih (fun d hd => hbreaks d (List.mem_cons_of_mem _ hd)) h₁
    refine ⟨r', h', hsame'.trans hsame₁, fun fuel ch => ?_⟩
    have hc := hbreaks c List.mem_cons_self
    have hfuel : (c :: breaks).length + fuel = breaks.length + fuel + 1 := by
      rw [List.length_cons]
      omega
    obtain ⟨ch', hch', heq⟩ := hloop' fuel c
    refine ⟨ch', fun _ => hch' (.inl hc), ?_⟩
    rw [hfuel, hloop₁, if_pos hc, if_neg (not_not.mpr rfl), heq]

theorem Keeps.lineLoop_line {line : Bytes} (hline : ∀ c ∈ line, ¬ isBreak c)
    (h : Keeps Holds r (line ++ cache) rest) :
    ∃ r', Keeps Holds r' cache rest ∧ r'.sourceStream = r.sourceStream ∧
      ∀ fuel string ch, ∃ ch', (¬ isBreak ch ∨ line ≠ [] → ¬ isBreak ch') ∧
        lineLoop (line.length + fuel) string ch r = lineLoop fuel (string ++ line) ch' r' := by
  induction line generalizing r with
  | nil => exact ⟨r, h, rfl, fun fuel string ch => ⟨ch, by simp, by simp⟩⟩
  | cons c line ih =>
    obtain ⟨r₁, h₁, hsame₁, hloop₁⟩ := h.lineLoop_cached
    obtain ⟨r', h', hsame', hloop'⟩ := ih (fun d hd => hline d (List.mem_cons_of_mem _ hd)) h₁
    refine ⟨r', h', hsame'.trans hsame₁, fun fuel string ch => ?_⟩
    have hc := hline c List.mem_cons_self
    have hfuel : (c :: line).length + fuel = line.length + fuel + 1 := by
      rw [List.length_cons]
      omega
    obtain ⟨ch', hch', heq⟩ := hloop' fuel (string ++ [c]) c
    refine ⟨ch', fun _ => hch' (.inl hc), ?_⟩
    rw [hfuel, hloop₁, if_neg hc, heq, List.append_assoc, List.singleton_append]

/-- Whatever the loop does, the cache is one afterwards. -/
theorem Keeps.lineLoop_keeps (hsource : Trickles Holds) {fuel : ℕ} {string result : Bytes}
    {ch : UInt8} {r' : BaseStreamReader σ} (h : Keeps Holds r cache rest)
    (hloop : lineLoop fuel string ch r = .ok (result, r')) : ∃ cache' rest', Keeps Holds r' cache' rest' := by
  induction fuel generalizing r cache rest string ch with
  | zero => cases hloop
  | succ fuel ih =>
    cases cache with
    | nil =>
      obtain ⟨got, rest', r₁, -, h₁, -, -, hloop₁⟩ := h.lineLoop_refill hsource
      rw [hloop₁] at hloop
      split_ifs at hloop
      · cases hloop
        exact ⟨_, _, h₁⟩
      · cases hloop
        exact ⟨_, _, h₁⟩
      · exact ih h₁ hloop
      · exact ih h₁ hloop
    | cons c cache =>
      obtain ⟨r₁, h₁, -, hloop₁⟩ := h.lineLoop_cached
      rw [hloop₁] at hloop
      split_ifs at hloop
      · cases hloop
        exact ⟨_, _, h₁⟩
      · exact ih h₁ hloop
      · exact ih h₁ hloop

theorem Keeps.lineLoop_ge (hsource : Trickles Holds) {fuel : ℕ} {string result : Bytes} {ch : UInt8}
    {r' : BaseStreamReader σ} (h : Keeps Holds r cache rest) (hstring : string ≠ [])
    (hch : ¬ isBreak ch) (hloop : lineLoop fuel string ch r = .ok (result, r')) :
    string.length + ((cache ++ rest).takeWhile (!isBreak ·)).length ≤ result.length := by
  induction fuel generalizing r cache rest string ch with
  | zero => cases hloop
  | succ fuel ih =>
    cases cache with
    | nil =>
      obtain ⟨got, rest', r₁, rfl, h₁, hend, -, hloop₁⟩ := h.lineLoop_refill hsource
      rw [hloop₁, if_neg hch] at hloop
      split_ifs at hloop with hgot
      · cases hloop
        rw [hend hgot]
        simp
      · have hge := ih h₁ (by simp) hch hloop
        simp only [List.length_append, List.length_singleton] at hge
        rw [List.nil_append]
        omega
    | cons c cache =>
      obtain ⟨r₁, h₁, -, hloop₁⟩ := h.lineLoop_cached
      rw [hloop₁] at hloop
      by_cases hc : isBreak c
      · rw [if_pos hc, if_pos hstring] at hloop
        cases hloop
        simp [hc]
      · rw [if_neg hc] at hloop
        have hge := ih h₁ (by simp) hc hloop
        simp only [List.length_append, List.length_singleton] at hge
        rw [List.cons_append, List.takeWhile_cons_of_pos (by simpa using hc), List.length_cons]
        omega

theorem nextLine_breaks {breaks : Bytes} (hbreaks : ∀ c ∈ breaks, isBreak c) (u : Bytes) :
    nextLine (breaks ++ u) = nextLine u := by
  rw [nextLine, nextLine, List.dropWhile_append_of_pos hbreaks]

theorem nextLine_line {line : Bytes} (hline : ∀ c ∈ line, ¬ isBreak c) (hne : line ≠ []) (u : Bytes) :
    nextLine (line ++ u) =
      (line ++ u.takeWhile (!isBreak ·), (u.dropWhile (!isBreak ·)).drop 1) := by
  have hdrop : (line ++ u).dropWhile isBreak = line ++ u := by
    cases line with
    | nil => exact absurd rfl hne
    | cons c line => exact List.dropWhile_cons_of_neg (hline c List.mem_cons_self)
  have hall : ∀ c ∈ line, (!isBreak c) = true := fun c hc => by simpa using hline c hc
  rw [nextLine, hdrop, List.takeWhile_append_of_pos hall, List.dropWhile_append_of_pos hall]

theorem exists_line (cache : Bytes) : ∃ breaks line tail, cache = breaks ++ (line ++ tail) ∧
    (∀ c ∈ breaks, isBreak c) ∧ (∀ c ∈ line, ¬ isBreak c) ∧
    (tail = [] ∨ line ≠ [] ∧ ∃ c tail', tail = c :: tail' ∧ isBreak c) := by
  refine ⟨cache.takeWhile isBreak, (cache.dropWhile isBreak).takeWhile (!isBreak ·),
    (cache.dropWhile isBreak).dropWhile (!isBreak ·), ?_, ?_, ?_, ?_⟩
  · rw [List.takeWhile_append_dropWhile, List.takeWhile_append_dropWhile]
  · exact fun c hc => List.mem_takeWhile_imp hc
  · intro c hc
    simpa using List.mem_takeWhile_imp hc
  · cases htail : (cache.dropWhile isBreak).dropWhile (!isBreak ·) with
    | nil => exact .inl rfl
    | cons c tail =>
      have hc := List.head?_dropWhile_not (!isBreak ·) (cache.dropWhile isBreak)
      rw [htail] at hc
      have hbreak : isBreak c := by simpa using hc
      refine .inr ⟨fun hnil => ?_, c, tail, rfl, hbreak⟩
      have hfirst := List.head?_dropWhile_not isBreak cache
      have hsplit := List.takeWhile_append_dropWhile (p := (!isBreak ·)) (l := cache.dropWhile isBreak)
      rw [hnil, htail, List.nil_append] at hsplit
      rw [← hsplit] at hfirst
      exact Bool.false_ne_true (hfirst.symm.trans hbreak)

theorem Whole.lineLoop_eq (hsource : Trickles Holds) {source : σ} (h : Whole cache source)
    (hr : Keeps Holds r cache rest) (hsame : r.sourceStream = source) (hne : cache ≠ []) {fuel : ℕ}
    (hfuel : cache.length + 2 * rest.length + 1 ≤ fuel) (ch : UInt8) :
    ∃ r', lineLoop fuel [] ch r = .ok ((nextLine (cache ++ rest)).1, r') ∧
      Keeps Holds r' [] (nextLine (cache ++ rest)).2 := by
  induction h generalizing r rest fuel ch with
  | @refilled breaks got source source' hbreaks hread hgot _ ih =>
    rw [← List.append_nil breaks] at hr
    obtain ⟨r₁, h₁, hsame₁, hloop₁⟩ := hr.lineLoop_breaks hbreaks
    obtain ⟨got', rest', r₂, rfl, h₂, -, hfill, hloop₂⟩ := h₁.lineLoop_refill hsource
    rw [hsame₁, hsame, hread] at hfill
    obtain ⟨rfl, rfl⟩ := Prod.mk.inj (Except.ok.inj hfill)
    rw [List.length_append] at hfuel
    obtain ⟨fuel, rfl⟩ : ∃ k, fuel = breaks.length + (k + 1) :=
      ⟨fuel - breaks.length - 1, by omega⟩
    obtain ⟨ch', hch', heq⟩ := hloop₁ (fuel + 1) ch
    have hfuel' : got.length + 2 * rest'.length + 1 ≤ fuel := by
      have hlen := List.length_pos_iff.mpr hgot
      omega
    obtain ⟨r', hloop', h'⟩ := ih h₂ rfl hgot hfuel' ch'
    refine ⟨r', ?_, ?_⟩
    · rw [heq, hloop₂, if_neg hgot, if_pos (hch' (.inr hne)), if_neg (not_not.mpr rfl), hloop',
        nextLine_breaks hbreaks]
    · rwa [nextLine_breaks hbreaks]
  | @ended breaks source source' hbreaks hread =>
    rw [← List.append_nil breaks] at hr
    obtain ⟨r₁, h₁, hsame₁, hloop₁⟩ := hr.lineLoop_breaks hbreaks
    obtain ⟨got, rest', r₂, rfl, h₂, hend, hfill, hloop₂⟩ := h₁.lineLoop_refill hsource
    rw [hsame₁, hsame, hread] at hfill
    obtain ⟨rfl, -⟩ := Prod.mk.inj (Except.ok.inj hfill)
    obtain rfl : rest' = [] := hend rfl
    obtain ⟨fuel, rfl⟩ : ∃ k, fuel = breaks.length + (k + 1) :=
      ⟨fuel - breaks.length - 1, by omega⟩
    obtain ⟨ch', -, heq⟩ := hloop₁ (fuel + 1) ch
    refine ⟨r₂, ?_, ?_⟩
    · rw [heq, hloop₂, if_pos rfl, nextLine_breaks hbreaks]
      rfl
    · rw [nextLine_breaks hbreaks]
      exact h₂
  | @broken breaks line c source hbreaks hline hnonempty hc =>
    obtain ⟨r₁, h₁, hsame₁, hloop₁⟩ := hr.lineLoop_breaks hbreaks
    obtain ⟨r₂, h₂, hsame₂, hloop₂⟩ := h₁.lineLoop_line hline
    obtain ⟨r₃, h₃, hsame₃, hloop₃⟩ := h₂.lineLoop_cached
    simp only [List.length_append, List.length_singleton] at hfuel
    obtain ⟨fuel, rfl⟩ : ∃ k, fuel = breaks.length + (line.length + (k + 1)) :=
      ⟨fuel - breaks.length - line.length - 1, by omega⟩
    obtain ⟨ch₁, -, heq₁⟩ := hloop₁ (line.length + (fuel + 1)) ch
    obtain ⟨ch₂, -, heq₂⟩ := hloop₂ (fuel + 1) [] ch₁
    have hnext : nextLine (breaks ++ (line ++ [c]) ++ rest) = (line, rest) := by
      rw [List.append_assoc, nextLine_breaks hbreaks, List.append_assoc, nextLine_line hline hnonempty]
      simp [hc]
    rw [hnext]
    refine ⟨r₃, ?_, h₃⟩
    rw [heq₁, heq₂, hloop₃, if_pos hc, if_pos (by simpa using hnonempty), List.nil_append]
  | @exhausted breaks line source source' hbreaks hline hnonempty hread =>
    rw [← List.append_nil line] at hr
    obtain ⟨r₁, h₁, hsame₁, hloop₁⟩ := hr.lineLoop_breaks hbreaks
    obtain ⟨r₂, h₂, hsame₂, hloop₂⟩ := h₁.lineLoop_line hline
    obtain ⟨got, rest', r₃, rfl, h₃, hend, hfill, hloop₃⟩ := h₂.lineLoop_refill hsource
    rw [hsame₂, hsame₁, hsame, hread] at hfill
    obtain ⟨rfl, -⟩ := Prod.mk.inj (Except.ok.inj hfill)
    obtain rfl : rest' = [] := hend rfl
    rw [List.length_append] at hfuel
    obtain ⟨fuel, rfl⟩ : ∃ k, fuel = breaks.length + (line.length + (k + 1)) :=
      ⟨fuel - breaks.length - line.length - 1, by omega⟩
    obtain ⟨ch₁, -, heq₁⟩ := hloop₁ (line.length + (fuel + 1)) ch
    obtain ⟨ch₂, -, heq₂⟩ := hloop₂ (fuel + 1) [] ch₁
    have hnext : nextLine (breaks ++ line ++ ([] ++ [])) = (line, []) := by
      rw [List.append_assoc, nextLine_breaks hbreaks, nextLine_line hline hnonempty]
      simp
    rw [hnext]
    refine ⟨r₃, ?_, h₃⟩
    rw [heq₁, heq₂, hloop₃, if_pos rfl, List.nil_append]

/-- A line that is read right, with nothing lost, comes whole. -/
theorem Keeps.whole (hsource : Trickles Holds) (h : Keeps Holds r cache rest) (hne : cache ≠ [])
    {fuel : ℕ} (hfuel : cache.length + 2 * rest.length + 1 ≤ fuel) {ch : UInt8}
    {r' : BaseStreamReader σ}
    (hloop : lineLoop fuel [] ch r = .ok ((nextLine (cache ++ rest)).1, r'))
    (hleft : Holds r'.sourceStream (nextLine (cache ++ rest)).2) : Whole cache r.sourceStream := by
  induction hn : rest.length using Nat.strong_induction_on generalizing r cache rest fuel ch with
  | _ n ih =>
    obtain ⟨breaks, line, tail, rfl, hbreaks, hline, htail⟩ := exists_line cache
    obtain ⟨r₁, h₁, hsame₁, hloop₁⟩ := h.lineLoop_breaks hbreaks
    simp only [List.length_append] at hfuel
    obtain ⟨fuel, rfl⟩ : ∃ k, fuel = breaks.length + (line.length + (k + 1)) :=
      ⟨fuel - breaks.length - line.length - 1, by omega⟩
    obtain ⟨ch₁, hch₁, heq₁⟩ := hloop₁ (line.length + (fuel + 1)) ch
    rw [heq₁] at hloop
    rw [List.append_assoc, nextLine_breaks hbreaks] at hloop hleft
    by_cases hnil : line = []
    · -- only line breaks are in the cache
      obtain rfl : tail = [] := by
        rcases htail with htail | ⟨hnonempty, -⟩
        · exact htail
        · exact absurd hnil hnonempty
      subst hnil
      obtain ⟨got, rest', r₂, rfl, h₂, hend, hfill, hloop₂⟩ := h₁.lineLoop_refill hsource
      rw [hsame₁] at hfill
      simp only [List.append_nil] at hne ⊢
      by_cases hgot : got = []
      · subst hgot
        exact .ended hbreaks hfill
      · have hlen := List.length_pos_iff.mpr hgot
        rw [List.length_nil, Nat.zero_add, hloop₂, if_neg hgot, if_pos (hch₁ (.inr hne)),
          if_neg (not_not.mpr rfl)] at hloop
        have hfuel' : got.length + 2 * rest'.length + 1 ≤ fuel := by
          simp only [List.length_append] at hfuel
          omega
        have hlt : rest'.length < n := by
          rw [← hn, List.length_append]
          omega
        exact .refilled hbreaks hfill hgot (ih _ hlt h₂ hgot hfuel' hloop hleft rfl)
    · obtain ⟨r₂, h₂, hsame₂, hloop₂⟩ := h₁.lineLoop_line hline
      obtain ⟨ch₂, hch₂, heq₂⟩ := hloop₂ (fuel + 1) [] ch₁
      rw [heq₂, List.nil_append] at hloop
      rw [List.append_assoc, nextLine_line hline hnil] at hloop hleft
      rcases htail with rfl | ⟨-, c, tail, rfl, hc⟩
      · obtain ⟨got, rest', r₃, rfl, h₃, hend, hfill, hloop₃⟩ := h₂.lineLoop_refill hsource
        rw [hsame₂, hsame₁] at hfill
        rw [hloop₃] at hloop
        rw [List.append_nil]
        by_cases hgot : got = []
        · subst hgot
          exact .exhausted hbreaks hline hnil hfill
        · -- the last character of the cache is taken twice
          have hch := hch₂ (.inr hnil)
          rw [if_neg hgot, if_neg hch] at hloop
          have hge := h₃.lineLoop_ge hsource (by simp) hch hloop
          simp only [List.length_append, List.length_singleton, List.nil_append] at hge
          omega
      · obtain ⟨r₃, h₃, hsame₃, hloop₃⟩ := h₂.lineLoop_cached
        rw [hloop₃, if_pos hc, if_pos hnil] at hloop
        obtain ⟨-, rfl⟩ := Prod.mk.inj (Except.ok.inj hloop)
        have hlost : rest = tail ++ rest := by
          refine trickles_unique hsource h₃.source ?_
          simpa [hc] using hleft
        obtain rfl : tail = [] := List.append_left_eq_self.mp hlost.symm
        exact .broken hbreaks hline hnil hc

omit [InputStream σ] in
theorem Keeps.freeCapacity (h : Keeps Holds r cache rest) :
    Keeps Holds { r with bufferStream := r.bufferStream.freeCapacity.2 } [] rest := by
  obtain ⟨q, hq, -⟩ := h.buffer
  exact ⟨⟨.empty, hq.freeCapacity, rfl⟩, h.source⟩

theorem Keeps.readLine_eq (hsource : Trickles Holds)
    (hle : ∀ {s u}, Holds s u → u.length ≤ InputStream.left s) (h : Keeps Holds r cache rest) :
    (cache ++ rest = [] ∧ Whole cache r.sourceStream ∧
        ∃ r', r.readLine = .ok ([], r') ∧ Keeps Holds r' [] []) ∨
      ∃ r₁ cache₁ rest₁ fuel, Keeps Holds r₁ cache₁ rest₁ ∧ cache₁ ≠ [] ∧
        cache ++ rest = cache₁ ++ rest₁ ∧ cache₁.length + 2 * rest₁.length + 1 ≤ fuel ∧
        (Whole cache r.sourceStream ↔ Whole cache₁ r₁.sourceStream) ∧
        r.readLine = (do
          let (string, r) ← lineLoop fuel [] 0 r₁
          return (string, { r with bufferStream := r.bufferStream.freeCapacity.2 })) := by
  obtain ⟨q, hq, rfl⟩ := h.buffer
  have hsize := hq.getReadableSize_eq
  by_cases hempty : q.unread = []
  · rw [hempty] at h hsize ⊢
    obtain ⟨got, rest', r₁, rfl, hpre, h₁, hend, hfill⟩ := h.preRead_eq hsource
    rw [List.nil_append] at h₁
    by_cases hgot : got = []
    · subst hgot
      obtain rfl : rest' = [] := hend rfl
      refine .inl ⟨rfl, .ended (by simp) hfill, _, ?_, h₁.freeCapacity⟩
      rw [readLine, hsize, ok_bind, List.length_nil, if_pos rfl, hpre]
      rfl
    · have hlen := List.length_pos_iff.mpr hgot
      have hleft := hle h₁.source
      refine .inr ⟨r₁, got, rest', got.length + 2 * InputStream.left r₁.sourceStream + 1, h₁, hgot, rfl,
        by omega, ?_, ?_⟩
      · constructor
        · intro hwhole
          generalize hnil : ([] : Bytes) = empty at hwhole
          cases hwhole with
          | refilled _ hread _ hwhole =>
            obtain ⟨rfl, rfl⟩ := Prod.mk.inj (Except.ok.inj (hfill.symm.trans hread))
            exact hwhole
          | ended _ hread =>
            exact absurd (Prod.mk.inj (Except.ok.inj (hfill.symm.trans hread))).1 hgot
          | broken => simp at hnil
          | exhausted _ _ hnonempty => simp [hnonempty] at hnil
        · exact .refilled (by simp) hfill hgot
      · rw [readLine, hsize, ok_bind, List.length_nil, if_pos rfl, hpre, ok_bind]
        dsimp only
        rw [Nat.zero_add, if_pos hlen]
  · have hlen := List.length_pos_iff.mpr hempty
    have hleft := hle h.source
    refine .inr ⟨r, q.unread, rest, q.unread.length + 2 * InputStream.left r.sourceStream + 1, h, hempty,
      rfl, by omega, Iff.rfl, ?_⟩
    rw [readLine, hsize, ok_bind, if_neg hlen.ne', ok_bind]
    dsimp only
    rw [Nat.add_zero, if_pos hlen]

/-- A call that meets the condition gives the next character or line. -/
theorem call_sound (hsource : Trickles Holds)
    (hle : ∀ {s u}, Holds s u → u.length ≤ InputStream.left s) {u : Bytes} {c : Call}
    (h : Left Holds r u) (hsound : Sound r c) :
    ∃ r', r.call c = .ok (answer u c, r') ∧ Left Holds r' (next u c) := by
  obtain ⟨cache, rest, hr, rfl⟩ := h
  cases c with
  | read ch =>
    cases cache with
    | cons c cache =>
      obtain ⟨r', h', -, hread⟩ := hr.read_cached
      exact ⟨r', by rw [call, hread]; rfl, cache, rest, h', rfl⟩
    | nil =>
      obtain ⟨got, rest', r', rfl, h', hend, hfill, hread⟩ := hr.read_refill hsource
      rcases hsound with hcached | ⟨source, hsound⟩
      · exact absurd hr.cached_eq hcached
      · obtain ⟨rfl, -⟩ := Prod.mk.inj (Except.ok.inj (hfill.symm.trans hsound))
        obtain rfl : rest' = [] := hend rfl
        exact ⟨r', by rw [call, hread]; rfl, [], [], h', rfl⟩
  | readLine =>
    rw [Sound, hr.cached_eq] at hsound
    rcases hr.readLine_eq hsource hle with ⟨hnil, -, r', hline, h'⟩ |
      ⟨r₁, cache₁, rest₁, fuel, h₁, hne, heq, hfuel, hwhole, hline⟩
    · rw [hnil]
      exact ⟨r', by rw [call, hline]; rfl, [], [], h', rfl⟩
    · obtain ⟨r', hloop, h'⟩ := (hwhole.mp hsound).lineLoop_eq hsource h₁ rfl hne hfuel 0
      rw [heq]
      refine ⟨_, ?_, [], _, h'.freeCapacity, rfl⟩
      rw [call, hline, hloop]
      rfl

/-- A call that gives the next character or line and loses nothing meets the condition. -/
theorem sound_of_call (hsource : Trickles Holds)
    (hle : ∀ {s u}, Holds s u → u.length ≤ InputStream.left s) {u : Bytes} {c : Call}
    {r' : BaseStreamReader σ} (h : Left Holds r u) (hcall : r.call c = .ok (answer u c, r'))
    (hleft : Left Holds r' (next u c)) : Sound r c := by
  obtain ⟨cache, rest, hr, rfl⟩ := h
  cases c with
  | read ch =>
    cases cache with
    | cons c cache => exact .inl (by rw [hr.cached_eq]; exact List.cons_ne_nil c cache)
    | nil =>
      obtain ⟨got, rest', r₁, rfl, h₁, hend, hfill, hread⟩ := hr.read_refill hsource
      by_cases hgot : got = []
      · subst hgot
        exact .inr ⟨_, hfill⟩
      · -- what `read` should have taken is still there
        rw [call, hread] at hcall
        obtain ⟨-, rfl⟩ := Prod.mk.inj (Except.ok.inj hcall)
        have hsame : got ++ rest' = (got ++ rest').tail :=
          Left.unique hsource ⟨got, rest', h₁, rfl⟩ hleft
        have hlen := congrArg List.length hsame
        have hpos := List.length_pos_iff.mpr hgot
        rw [List.length_tail, List.length_append] at hlen
        omega
  | readLine =>
    rw [Sound, hr.cached_eq]
    rcases hr.readLine_eq hsource hle with ⟨-, hwhole, -⟩ |
      ⟨r₁, cache₁, rest₁, fuel, h₁, hne, heq, hfuel, hwhole, hline⟩
    · exact hwhole
    · rw [call, hline] at hcall
      obtain ⟨⟨string, r₂⟩, hreadLine, hcall⟩ := bind_eq_ok.mp hcall
      obtain ⟨⟨string, r₂⟩, hloop, hreadLine⟩ := bind_eq_ok.mp hreadLine
      cases hreadLine
      obtain ⟨hstring, rfl⟩ := Prod.mk.inj (Except.ok.inj hcall)
      obtain rfl := Answer.line.inj hstring
      obtain ⟨cache₂, rest₂, h₂⟩ := h₁.lineLoop_keeps hsource hloop
      have hrest : rest₂ = (nextLine (cache ++ rest)).2 :=
        Left.unique hsource ⟨[], rest₂, h₂.freeCapacity, rfl⟩ hleft
      rw [heq] at hloop hrest
      exact hwhole.mpr (h₁.whole hsource hne hfuel hloop (hrest ▸ h₂.source))

/-- The runs in which no character is read right after a refill and every line comes whole are
those along which the characters and the lines are those of the source, and nothing is lost. -/
theorem sound_iff_answers (hsource : Trickles Holds)
    (hle : ∀ {s u}, Holds s u → u.length ≤ InputStream.left s) {source : σ} {u : Bytes}
    (hu : Holds source u) (calls : List Call) :
    (∃ t, RunWhere (serve call) (fun s c => Sound s.1 c) (new source, []) calls t) ↔
      ∀ pre, pre <+: calls → ∃ t, RunWhere (serve call) Unrestricted (new source, []) pre t ∧
        t.2 = answers answer next u pre ∧ Left Holds t.1 (pre.foldl next u) := by
  apply @ serve_iff_forall_prefix _ _ _ _ _ call Sound Unrestricted answer next (new source) u calls
    (Left Holds) (Left Holds)
  · exact ⟨[], u, new_keeps hu, rfl⟩
  · exact fun _ _ h => h
  · exact fun s v c h hsound => ⟨trivial, call_sound hsource hle h hsound⟩
  · exact fun s v c t h _ hcall hleft => sound_of_call hsource hle h hcall hleft

theorem sound_iff_answers_packets :
    (∃ t, RunWhere (serve call) (fun s c => Sound s.1 c)
        (new (Packets.mk [[97, 10], [98]]), []) [.readLine, .readLine] t) ↔
      ∀ pre, pre <+: [.readLine, .readLine] → ∃ t, RunWhere (serve call) Unrestricted
        (new (Packets.mk [[97, 10], [98]]), []) pre t ∧
          t.2 = answers answer next [97, 10, 98] pre ∧
          Left Packets.Carries t.1 (pre.foldl next [97, 10, 98]) :=
  sound_iff_answers Packets.trickles (fun h => by rw [← h.flatten_eq]; rfl) ⟨rfl, by decide⟩ _

/-- The first character makes `read` fill the cache, and is not delivered. -/
theorem first_not_delivered :
    ∃ t, RunWhere (serve call) Unrestricted (new (Packets.mk [[97]]), []) [.read 0] t ∧
      t.2 = [.char (some 0)] ∧ answers answer next [97] [.read 0] = [.char (some 97)] := by
  have hstart : Keeps Packets.Carries (new (Packets.mk [[97]])) [] [97] := new_keeps ⟨rfl, by decide⟩
  obtain ⟨got, rest, r', -, -, hend, -, hread⟩ := hstart.read_refill Packets.trickles
  have hgot : got ≠ [] := fun hnil => absurd (hend hnil) (by decide)
  have hcall : (new (Packets.mk [[97]])).call (.read 0) = .ok (.char (some 0), r') := by
    rw [call, hread, decide_eq_true hgot]
    rfl
  exact ⟨(r', _), .cons trivial (serve_ok.mpr ⟨_, hcall, rfl⟩) (.nil _), rfl, rfl⟩

end BaseStreamReader
end Sese.Io
