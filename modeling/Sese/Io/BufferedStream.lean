import Sese.Foundation.Runs
import Sese.Io.InputStream

/-!
# Buffered reading

`BufferedInputStream::read` and `BufferedStream::read`, which have the same text, over a
source that may give less than it is asked for. What such a stream owes to its clients is that
no octet of the source is lost or given twice.
-/
namespace Sese.Io

open Foundation

variable {σ : Type}

/-- The fields of both classes. `buffer` has the octets of the cache that are in use, those
before `len`. -/
structure Buffered (σ : Type) where
  source : σ
  buffer : Bytes := []
  pos : ℕ := 0
  cap : ℕ

namespace Buffered

def cached (s : Buffered σ) : Bytes := s.buffer.drop s.pos

theorem length_cached (s : Buffered σ) : s.cached.length = s.buffer.length - s.pos :=
  List.length_drop

variable [InputStream σ]

/-- The loop that reads past the cache, at most 1024 octets at a time: the octets, `total` and
the source. A pass that goes on has read an octet, so that there are at most `length` of them. -/
def directLoop : ℕ → ℕ → ℕ → σ → Except Fault (Bytes × ℕ × σ)
  | 0, _, total, source => .ok ([], total, source)
  | fuel + 1, length, total, source => do
    let (got, source) ← InputStream.read source (if length - total ≥ 1024 then 1024 else length - total)
    let total := total + got.length
    if got.length = 0 then return (got, total, source)
    else if total = length then return (got, total, source)
    else do
      let (more, total, source) ← directLoop fuel length total source
      return (got ++ more, total, source)

/-- `read`: the octets that are copied to `buf`, and the result. -/
def read (s : Buffered σ) (length : ℕ) : Except Fault ((Bytes × ℕ) × Buffered σ) :=
  let total := s.buffer.length - s.pos
  if length ≤ s.cap then
    if length ≤ total then
      .ok ((s.cached.take length, length), { s with pos := s.pos + length })
    else do
      let copied := s.cached.take total
      let (got, source) ← InputStream.read s.source s.cap
      if got.length ≠ 0 then
        if length - total ≤ got.length then
          return ((copied ++ got.take (length - total), length),
            { s with source := source, buffer := got, pos := length - total })
        else
          -- `total` grows by `len - pos` after `pos` was set to `len`
          return ((copied ++ got, total + (got.length - got.length)),
            { s with source := source, buffer := got, pos := got.length })
      else return ((copied, total), { s with source := source, buffer := [], pos := 0 })
  else do
    -- the rest of the cache is copied from its beginning
    let copied := s.buffer.take total
    let (more, total, source) ← directLoop length length total s.source
    return ((copied ++ more, total), { s with source := source, buffer := [], pos := 0 })

end Buffered

def BufferedInputStream.read [InputStream σ] (s : Buffered σ) (length : ℕ) :
    Except Fault ((Bytes × ℕ) × Buffered σ) := s.read length

def BufferedStream.read [InputStream σ] (s : Buffered σ) (length : ℕ) :
    Except Fault ((Bytes × ℕ) × Buffered σ) := s.read length

variable [InputStream σ]

/-- In a state with `Holds s u` the octets `u` are still to be read. A read gives at least one
of them, while there is one, and at most as many as it was asked for. -/
def Trickles (Holds : σ → Bytes → Prop) : Prop :=
  ∀ {s u n}, Holds s u → 0 < n → ∃ got rest s', u = got ++ rest ∧
    InputStream.read s n = .ok (got, s') ∧ got.length ≤ n ∧ (got = [] → u = []) ∧ Holds s' rest

namespace Buffered

/-- The result of a read is right if the source, when the cache has to be filled, gives nothing
or enough, and if a read that is longer than the cache finds the cache empty or unread, or its
first octets repeated at its end. -/
def Undisturbed (s : Buffered σ) (length : ℕ) : Prop :=
  if length ≤ s.cap then
    s.cached.length < length → ∀ got source, InputStream.read s.source s.cap = .ok (got, source) →
      got = [] ∨ length - s.cached.length ≤ got.length
  else s.buffer.take s.cached.length = s.cached

/-- What the source had is what was delivered, what is in the cache and what is still in the
source, and every result is the number of the octets that were delivered. -/
structure Accounted (Holds : σ → Bytes → Prop) (u : Bytes) (s : Buffered σ × List (Bytes × ℕ)) :
    Prop where
  returned : ∀ a ∈ s.2, a.2 = a.1.length
  delivered : ∃ rest, Holds s.1.source rest ∧ s.2.flatMap Prod.fst ++ (s.1.cached ++ rest) = u

structure Settled (s : Buffered σ) : Prop where
  pos_le : s.pos ≤ s.buffer.length
  length_le : s.buffer.length ≤ s.cap
  cap_pos : 0 < s.cap

variable {Holds : σ → Bytes → Prop} {s : Buffered σ} {rest : Bytes} {n : ℕ}

/-- What a read does: it comes back, and its result is right and nothing is lost or repeated
if and only if nothing disturbs it. -/
structure ReadSpec (Holds : σ → Bytes → Prop) (s : Buffered σ) (rest : Bytes) (n : ℕ)
    (copied : Bytes) (value : ℕ) (s' : Buffered σ) : Prop where
  read_eq : s.read n = .ok ((copied, value), s')
  settled : s'.Settled
  clean : s.Undisturbed n → value = copied.length ∧
    ∃ rest', Holds s'.source rest' ∧ s.cached ++ rest = copied ++ (s'.cached ++ rest')
  disturbed : ¬ s.Undisturbed n →
    value ≠ copied.length ∨ ∀ more, s.cached ++ rest ≠ copied ++ more

theorem directLoop_eq (hsource : Trickles Holds) {source : σ} (hrest : Holds source rest)
    {fuel length total : ℕ} (htotal : total < length) (hfuel : length ≤ total + fuel) :
    ∃ got rest' source', directLoop fuel length total source = .ok (got, total + got.length, source') ∧
      rest = got ++ rest' ∧ Holds source' rest' := by
  induction fuel generalizing source rest total with
  | zero => omega
  | succ fuel ih =>
    have hneed : 0 < (if length - total ≥ 1024 then 1024 else length - total) := by
      split <;> omega
    have hle : (if length - total ≥ 1024 then 1024 else length - total) ≤ length - total := by
      split <;> omega
    obtain ⟨got, rest', source', rfl, hread, hlen, -, hrest'⟩ := hsource hrest hneed
    by_cases hgot : got.length = 0
    · refine ⟨got, rest', source', ?_, rfl, hrest'⟩
      simp only [directLoop, hread, bind, Except.bind, hgot, if_true]
      rfl
    · by_cases hend : total + got.length = length
      · refine ⟨got, rest', source', ?_, rfl, hrest'⟩
        simp only [directLoop, hread, bind, Except.bind, if_neg hgot, if_pos hend]
        rfl
      · have hshort : total + got.length < length := by omega
        obtain ⟨more, rest'', source'', hmore, rfl, hrest''⟩ := ih hrest' hshort (by omega)
        refine ⟨got ++ more, rest'', source'', ?_, (List.append_assoc _ _ _).symm, hrest''⟩
        simp only [directLoop, hread, bind, Except.bind, if_neg hgot, if_neg hend, hmore,
          List.length_append, ← Nat.add_assoc]
        rfl

theorem read_cached (hs : s.Settled) (hcap : n ≤ s.cap) (hn : n ≤ s.cached.length)
    (hrest : Holds s.source rest) :
    ReadSpec Holds s rest n (s.cached.take n) n { s with pos := s.pos + n } where
  read_eq := by
    rw [s.length_cached] at hn
    simp only [read, if_pos hcap, if_pos hn]
  settled := by
    have hpos := hs.pos_le
    rw [s.length_cached] at hn
    exact ⟨by dsimp only; omega, hs.length_le, hs.cap_pos⟩
  clean := by
    intro _
    refine ⟨by rw [List.length_take, min_eq_left hn], rest, hrest, ?_⟩
    have hcached : ({ s with pos := s.pos + n } : Buffered σ).cached = s.cached.drop n := by
      simp only [cached, List.drop_drop]
    rw [hcached, ← List.append_assoc, List.take_append_drop]
  disturbed := by
    intro hdisturbed
    refine absurd ?_ hdisturbed
    rw [Undisturbed, if_pos hcap]
    intro hlt
    omega

theorem read_refill (hsource : Trickles Holds) (hs : s.Settled) (hcap : n ≤ s.cap)
    (hn : s.cached.length < n) (hrest : Holds s.source rest) :
    ∃ copied value s', ReadSpec Holds s rest n copied value s' := by
  obtain ⟨got, rest', source', rfl, hread, hlen, -, hrest'⟩ := hsource hrest hs.cap_pos
  have htotal : ¬ n ≤ s.cached.length := by omega
  have hundisturbed : s.Undisturbed n ↔ got = [] ∨ n - s.cached.length ≤ got.length := by
    rw [Undisturbed, if_pos hcap]
    constructor
    · exact fun h => h hn got source' hread
    · intro h _ got₁ source₁ hread₁
      rw [hread] at hread₁
      cases hread₁
      exact h
  by_cases hgot : got.length = 0
  · obtain rfl := List.eq_nil_of_length_eq_zero hgot
    refine ⟨s.cached, s.cached.length, { s with source := source', buffer := [], pos := 0 }, ?_⟩
    constructor
    · simp only [read, ← s.length_cached, if_pos hcap, if_neg htotal, hread, bind, Except.bind,
        List.take_length]
      rfl
    · exact ⟨le_rfl, Nat.zero_le _, hs.cap_pos⟩
    · intro _
      exact ⟨rfl, rest', hrest', rfl⟩
    · intro hdisturbed
      exact absurd (hundisturbed.mpr (.inl rfl)) hdisturbed
  · by_cases hle : n - s.cached.length ≤ got.length
    · refine ⟨s.cached ++ got.take (n - s.cached.length), n,
        { s with source := source', buffer := got, pos := n - s.cached.length }, ?_⟩
      have hlength : (s.cached ++ got.take (n - s.cached.length)).length = n := by
        rw [List.length_append, List.length_take, min_eq_left hle]
        omega
      constructor
      · simp only [read, ← s.length_cached, if_pos hcap, if_neg htotal, hread, bind, Except.bind,
          List.take_length, ne_eq, hgot, not_false_eq_true, if_true, if_pos hle]
        rfl
      · exact ⟨hle, hlen, hs.cap_pos⟩
      · intro _
        refine ⟨hlength.symm, rest', hrest', ?_⟩
        simp only [cached, List.append_assoc]
        rw [← List.append_assoc (got.take _), List.take_append_drop]
      · intro hdisturbed
        exact absurd (hundisturbed.mpr (.inr hle)) hdisturbed
    · refine ⟨s.cached ++ got, s.cached.length,
        { s with source := source', buffer := got, pos := got.length }, ?_⟩
      constructor
      · simp only [read, ← s.length_cached, if_pos hcap, if_neg htotal, hread, bind, Except.bind,
          List.take_length, ne_eq, hgot, not_false_eq_true, if_true, if_neg hle, Nat.sub_self,
          Nat.add_zero]
        rfl
      · exact ⟨le_rfl, hlen, hs.cap_pos⟩
      · intro hclean
        rcases hundisturbed.mp hclean with rfl | hle'
        · exact absurd rfl hgot
        · exact absurd hle' hle
      · intro _
        left
        rw [List.length_append]
        omega

theorem read_direct (hsource : Trickles Holds) (hs : s.Settled) (hcap : s.cap < n)
    (hrest : Holds s.source rest) : ∃ copied value s', ReadSpec Holds s rest n copied value s' := by
  have hlen := hs.length_le
  have htotal : s.cached.length < n := by
    rw [s.length_cached]
    omega
  have hfuel : n ≤ s.cached.length + n := Nat.le_add_left n _
  obtain ⟨more, rest', source', hloop, rfl, hrest'⟩ := directLoop_eq hsource hrest htotal hfuel
  have htake : (s.buffer.take s.cached.length).length = s.cached.length := by
    rw [List.length_take, s.length_cached]
    omega
  refine ⟨s.buffer.take s.cached.length ++ more, s.cached.length + more.length,
    { s with source := source', buffer := [], pos := 0 }, ?_⟩
  constructor
  · simp only [read, if_neg (Nat.not_le.mpr hcap), ← s.length_cached, hloop, bind, Except.bind]
    rfl
  · exact ⟨le_rfl, Nat.zero_le _, hs.cap_pos⟩
  · intro hclean
    rw [Undisturbed, if_neg (Nat.not_le.mpr hcap)] at hclean
    rw [hclean]
    refine ⟨List.length_append.symm, rest', hrest', ?_⟩
    rw [List.append_assoc]
    rfl
  · intro hdisturbed
    right
    intro tail heq
    rw [List.append_assoc] at heq
    rw [Undisturbed, if_neg (Nat.not_le.mpr hcap)] at hdisturbed
    exact hdisturbed (List.append_inj_left heq htake.symm).symm

theorem read_spec (hsource : Trickles Holds) (hs : s.Settled) (hrest : Holds s.source rest) (n : ℕ) :
    ∃ copied value s', ReadSpec Holds s rest n copied value s' := by
  by_cases hcap : n ≤ s.cap
  · by_cases hn : n ≤ s.cached.length
    · exact ⟨_, _, _, read_cached hs hcap hn hrest⟩
    · exact read_refill hsource hs hcap (by omega) hrest
  · exact read_direct hsource hs (by omega) hrest

theorem run_undisturbed_iff (hsource : Trickles Holds) {source : σ} {u : Bytes}
    (hu : Holds source u) {cap : ℕ} (hcap : 0 < cap) (lengths : List ℕ) :
    (∃ s, RunWhere (serve read) (fun s n => Undisturbed s.1 n) ({ source := source, cap := cap }, [])
        lengths s) ↔
      ∀ pre, pre <+: lengths → ∃ s,
        RunWhere (serve read) Unrestricted ({ source := source, cap := cap }, []) pre s ∧
          Accounted Holds u s := by
  apply RunWhere.exists_iff_forall_prefix_of_imp
    (fun _ s => s.1.Settled ∧ Accounted Holds u s) (fun _ s => Accounted Holds u s)
  · exact ⟨⟨le_rfl, Nat.zero_le _, hcap⟩, by simp, u, hu, rfl⟩
  · exact fun _ _ h => h.2
  · rintro _ ⟨s, as⟩ n ⟨hs, hreturned, rest, hrest, rfl⟩ hclean
    obtain ⟨copied, value, s', hspec⟩ := read_spec hsource hs hrest n
    obtain ⟨hvalue, rest', hrest', heq⟩ := hspec.clean hclean
    refine ⟨trivial, (s', as ++ [(copied, value)]), serve_ok.mpr ⟨_, hspec.read_eq, rfl⟩,
      hspec.settled, ?_, rest', hrest', ?_⟩
    · intro a ha
      rcases List.mem_append.mp ha with ha | ha
      · exact hreturned a ha
      · rw [List.mem_singleton.mp ha]
        exact hvalue
    · rw [List.flatMap_append, List.flatMap_singleton, List.append_assoc, ← heq]
  · rintro _ ⟨s, as⟩ n t ⟨hs, -, rest, hrest, rfl⟩ - ht ⟨hreturned, rest', -, hu⟩
    obtain ⟨copied, value, s', hspec⟩ := read_spec hsource hs hrest n
    obtain ⟨a, hact, hlast⟩ := serve_ok.mp ht
    obtain rfl : (copied, value) = a := by
      rw [hspec.read_eq] at hact
      exact (Prod.mk.inj (Except.ok.inj hact)).1
    rw [hlast] at hreturned hu
    by_contra hdisturbed
    rcases hspec.disturbed hdisturbed with hvalue | hmore
    · exact hvalue (hreturned _ (List.mem_append_right _ (List.mem_singleton_self _)))
    · rw [List.flatMap_append, List.flatMap_singleton, List.append_assoc] at hu
      exact hmore _ (List.append_cancel_left hu).symm

/-- In both classes, the runs in which nothing disturbs a read are those along which the octets
of the source are accounted for. -/
theorem undisturbed_iff_accounted (hsource : Trickles Holds) {source : σ} {u : Bytes}
    (hu : Holds source u) {cap : ℕ} (hcap : 0 < cap) (lengths : List ℕ) :
    ((∃ s, RunWhere (serve BufferedInputStream.read) (fun s n => Undisturbed s.1 n)
          ({ source := source, cap := cap }, []) lengths s) ↔
        ∀ pre, pre <+: lengths → ∃ s, RunWhere (serve BufferedInputStream.read) Unrestricted
          ({ source := source, cap := cap }, []) pre s ∧ Accounted Holds u s) ∧
      ((∃ s, RunWhere (serve BufferedStream.read) (fun s n => Undisturbed s.1 n)
          ({ source := source, cap := cap }, []) lengths s) ↔
        ∀ pre, pre <+: lengths → ∃ s, RunWhere (serve BufferedStream.read) Unrestricted
          ({ source := source, cap := cap }, []) pre s ∧ Accounted Holds u s) :=
  ⟨run_undisturbed_iff hsource hu hcap lengths, run_undisturbed_iff hsource hu hcap lengths⟩

end Buffered

/-- A source that hands out what it has packet by packet. -/
structure Packets where
  queue : List Bytes
  deriving DecidableEq

namespace Packets

/-- A read gives what fits of the first packet. -/
def read (s : Packets) (length : ℕ) : Except Fault (Bytes × Packets) :=
  match s.queue with
  | [] => .ok ([], s)
  | packet :: queue =>
    if packet.length ≤ length then .ok (packet, ⟨queue⟩)
    else .ok (packet.take length, ⟨packet.drop length :: queue⟩)

instance : InputStream Packets where
  read := read
  left s := s.queue.flatten.length

/-- No packet is empty, and `u` is in them. -/
structure Carries (s : Packets) (u : Bytes) : Prop where
  flatten_eq : s.queue.flatten = u
  ne_nil : ∀ packet ∈ s.queue, packet ≠ []

theorem trickles : Trickles Carries := by
  rintro ⟨queue⟩ u n ⟨rfl, hne⟩ hn
  cases queue with
  | nil => exact ⟨[], [], ⟨[]⟩, rfl, rfl, Nat.zero_le n, fun _ => rfl, rfl, hne⟩
  | cons packet queue =>
    have hpacket := hne packet List.mem_cons_self
    have hqueue : ∀ other ∈ queue, other ≠ [] := fun other hmem => hne other (List.mem_cons_of_mem _ hmem)
    by_cases hle : packet.length ≤ n
    · refine ⟨packet, queue.flatten, ⟨queue⟩, rfl, if_pos hle, hle, ?_, rfl, hqueue⟩
      exact fun h => absurd h hpacket
    · refine ⟨packet.take n, packet.drop n ++ queue.flatten, ⟨packet.drop n :: queue⟩, ?_, if_neg hle,
        ?_, ?_, rfl, ?_⟩
      · rw [← List.append_assoc, List.take_append_drop]
        rfl
      · exact List.length_take_le n packet
      · intro h
        rw [List.take_eq_nil_iff] at h
        rcases h with h | h
        · omega
        · exact absurd h hpacket
      · intro other hmem
        rcases List.mem_cons.mp hmem with rfl | hmem
        · exact fun h => hle (List.drop_eq_nil_iff.mp h)
        · exact hqueue other hmem

end Packets

namespace Buffered

theorem undisturbed_iff_accounted_packets :
    ((∃ s, RunWhere (serve BufferedInputStream.read) (fun s n => Undisturbed s.1 n)
          ({ source := Packets.mk [[1, 2], [3]], cap := 2 }, []) [1, 2] s) ↔
        ∀ pre, pre <+: [1, 2] → ∃ s, RunWhere (serve BufferedInputStream.read) Unrestricted
          ({ source := Packets.mk [[1, 2], [3]], cap := 2 }, []) pre s ∧
            Accounted Packets.Carries [1, 2, 3] s) ∧
      ((∃ s, RunWhere (serve BufferedStream.read) (fun s n => Undisturbed s.1 n)
          ({ source := Packets.mk [[1, 2], [3]], cap := 2 }, []) [1, 2] s) ↔
        ∀ pre, pre <+: [1, 2] → ∃ s, RunWhere (serve BufferedStream.read) Unrestricted
          ({ source := Packets.mk [[1, 2], [3]], cap := 2 }, []) pre s ∧
            Accounted Packets.Carries [1, 2, 3] s) :=
  undisturbed_iff_accounted Packets.trickles ⟨rfl, by decide⟩ (by decide) [1, 2]

/-- A read that is longer than the cache gives octets of the cache for the second time. -/
theorem repeats_cached : ∃ s, RunWhere (serve BufferedInputStream.read) Unrestricted
    ({ source := Packets.mk [[1, 2, 3, 4]], cap := 2 }, []) [1, 3] s ∧
      ¬ s.2.flatMap Prod.fst <+: [1, 2, 3, 4] := by
  obtain ⟨s, hrun, hs⟩ := exists_run_of_any (serve (@BufferedInputStream.read Packets _)) Unrestricted
    ({ source := Packets.mk [[1, 2, 3, 4]], cap := 2 }, []) [1, 3]
    (fun s => s.2.flatMap Prod.fst == [1, 1, 3, 4]) (by decide)
  refine ⟨s, hrun, ?_⟩
  rw [eq_of_beq hs]
  decide

end Buffered
end Sese.Io
