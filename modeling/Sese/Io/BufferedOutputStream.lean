import Sese.Foundation.Outcome
import Sese.Io.BufferedStream

/-!
# Buffered writing

`write` and `flush` of `BufferedOutputStream` and of `BufferedStream`, which have the same text,
over a sink that may take less than it is given. While every call reports full success, what the
sink took and what is in the cache are what was written.
-/
namespace Sese.Io

open Foundation

/-- `io::OutputStream`: the result of a write, and the sink behind it. -/
class OutputStream (σ : Type) where
  write : σ → Bytes → ℤ × σ

/-- In a state with `Took s u` the sink has accepted the octets `u`. A write is accepted up to
some octet, and its result is how many these are, unless it is negative. -/
def Accepts {σ : Type} [OutputStream σ] (Took : σ → Bytes → Prop) : Prop :=
  ∀ (s : σ) (u data : Bytes), Took s u → ∃ k ≤ data.length,
    Took (OutputStream.write s data).2 (u ++ data.take k) ∧
      (0 ≤ (OutputStream.write s data).1 → (OutputStream.write s data).1 = k)

variable {σ : Type} [OutputStream σ]

namespace Buffered

/-- The loop that writes past the cache, at most `cap` octets at a time. A pass that goes on has
written an octet, so that there are at most as many as there are octets. -/
def writeLoop (cap : ℕ) : ℕ → Bytes → ℕ → σ → Except Fault (ℤ × σ)
  | 0, _, _, _ => .error .endlessLoop
  | fuel + 1, buf, wrote, source =>
    let (rt, source) := OutputStream.write source ((buf.drop wrote).take
      (if buf.length - wrote ≥ cap then cap else buf.length - wrote))
    if rt ≤ 0 then .ok (-1, source)
    else
      let wrote := wrote + rt.toNat
      if wrote = buf.length then .ok (wrote, source) else writeLoop cap fuel buf wrote source

def flush (s : Buffered σ) : ℤ × Buffered σ :=
  let (wrote, source) := OutputStream.write s.source s.cached
  (wrote, { s with source := source, buffer := [], pos := 0 })

def write (s : Buffered σ) (buf : Bytes) : Except Fault (ℤ × Buffered σ) :=
  let expect : ℤ := s.buffer.length - s.pos
  if buf.length ≤ s.cap then
    if s.cap - s.buffer.length ≥ buf.length then
      .ok (buf.length, { s with buffer := s.buffer ++ buf })
    else
      let (wrote, s) := s.flush
      if expect = wrote then .ok (buf.length, { s with buffer := buf }) else .ok (-1, s)
  else
    let (wrote, s) := if s.buffer.length ≠ s.pos then s.flush else (expect, s)
    if expect ≠ wrote then .ok (-1, s)
    else do
      let (wrote, source) ← writeLoop s.cap buf.length buf 0 s.source
      return (wrote, { s with source := source })

end Buffered

inductive WriteCall
  | write (buf : Bytes)
  | flush
  deriving DecidableEq

namespace WriteCall

def data : WriteCall → Bytes
  | write buf => buf
  | flush => []

end WriteCall

namespace Buffered

def call (s : Buffered σ) : WriteCall → Except Fault (ℤ × Buffered σ)
  | .write buf => s.write buf
  | .flush => .ok s.flush

def fullResult (s : Buffered σ) : WriteCall → ℤ
  | .write buf => buf.length
  | .flush => s.cached.length

def callFully (s : Buffered σ) (c : WriteCall) : Except (Option Fault) (Buffered σ) :=
  match s.call c with
  | .error fault => .error (some fault)
  | .ok (result, t) => if result = s.fullResult c then .ok t else .error none

end Buffered

/-- `BufferedOutputStream::write` and `flush`. -/
def BufferedOutputStream.callFully (s : Buffered σ) (c : WriteCall) :
    Except (Option Fault) (Buffered σ) := s.callFully c

/-- `BufferedStream::write` and `flush`. -/
def BufferedStream.callFully (s : Buffered σ) (c : WriteCall) :
    Except (Option Fault) (Buffered σ) := s.callFully c

namespace Buffered

variable {Took : σ → Bytes → Prop} {s t : Buffered σ} {u : Bytes}

/-- What the sink took and what is in the cache are what was written; nothing of the cache was
taken, and there is room in it. -/
structure Carries (Took : σ → Bytes → Prop) (s : Buffered σ) (written : Bytes) : Prop where
  took : ∃ u, Took s.source u ∧ u ++ s.buffer = written
  pos_eq : s.pos = 0
  length_le : s.buffer.length ≤ s.cap
  cap_pos : 0 < s.cap

theorem writeLoop_full (hsink : Accepts Took) {cap fuel : ℕ} {buf : Bytes}
    {wrote : ℕ} (hwrote : wrote < buf.length) (hfuel : buf.length ≤ wrote + fuel) {source : σ}
    (hsource : Took source (u ++ buf.take wrote)) :
    ∃ rt source', writeLoop cap fuel buf wrote source = .ok (rt, source') ∧
      (rt = buf.length → Took source' (u ++ buf)) := by
  induction fuel generalizing wrote source with
  | zero => omega
  | succ fuel ih =>
    rw [writeLoop]
    generalize hchunk : (buf.drop wrote).take
      (if buf.length - wrote ≥ cap then cap else buf.length - wrote) = chunk
    have hlen : chunk.length ≤ buf.length - wrote := by
      rw [← hchunk, List.length_take, List.length_drop]
      exact min_le_right _ _
    obtain ⟨k, hk, htook, hresult⟩ := hsink _ _ chunk hsource
    cases hwrite : OutputStream.write source chunk with
    | mk rt source' =>
      rw [hwrite] at htook hresult
      dsimp only at htook hresult ⊢
      by_cases hneg : rt ≤ 0
      · rw [if_pos hneg]
        exact ⟨-1, source', rfl, fun h => by omega⟩
      · have hrt := hresult (by omega)
        have hnat : rt.toNat = k := by omega
        have htake : buf.take wrote ++ chunk.take k = buf.take (wrote + k) := by
          rw [List.take_add, ← hchunk, List.take_take, min_eq_left]
          rw [← hchunk, List.length_take] at hk
          exact hk.trans (min_le_left _ _)
        rw [List.append_assoc, htake] at htook
        rw [if_neg hneg, hnat]
        by_cases hend : wrote + k = buf.length
        · rw [if_pos hend]
          refine ⟨_, source', rfl, fun _ => ?_⟩
          rwa [hend, List.take_length] at htook
        · rw [if_neg hend]
          exact ih (by omega) (by omega) htook

theorem Carries.flush {written : Bytes} (hsink : Accepts Took) (h : s.Carries Took written)
    (hfull : s.flush.1 = s.buffer.length) : s.flush.2.Carries Took written := by
  obtain ⟨⟨u, hu, rfl⟩, hpos, hle, hcap⟩ := h
  obtain ⟨k, hk, htook, hresult⟩ := hsink _ _ s.buffer hu
  have hcached : s.cached = s.buffer := by rw [cached, hpos, List.drop_zero]
  rw [Buffered.flush, hcached] at hfull ⊢
  dsimp only at hfull ⊢
  have hkeq : k = s.buffer.length := by
    have := hresult (by omega)
    omega
  rw [hkeq, List.take_length] at htook
  exact ⟨⟨_, htook, List.append_nil _⟩, rfl, Nat.zero_le _, hcap⟩

theorem Carries.writeDirect {written buf : Bytes} (hsink : Accepts Took) (h : s.Carries Took written)
    (hempty : s.buffer = []) (hlong : s.cap < buf.length) :
    ∃ result source, writeLoop s.cap buf.length buf 0 s.source = .ok (result, source) ∧
      (result = buf.length → Carries Took { s with source := source } (written ++ buf)) := by
  obtain ⟨⟨u, hu, rfl⟩, hpos, hle, hcap⟩ := h
  have hstart : Took s.source (u ++ buf.take 0) := by simpa using hu
  have hloop : ∃ rt source, writeLoop s.cap buf.length buf 0 s.source = .ok (rt, source) ∧
      (rt = buf.length → Took source (u ++ buf)) :=
    writeLoop_full hsink (by omega) (by omega) hstart
  obtain ⟨rt, source, hloop, hfull⟩ := hloop
  refine ⟨rt, source, hloop, fun hrt => ⟨⟨_, hfull hrt, ?_⟩, hpos, hle, hcap⟩⟩
  simp [hempty]

theorem Carries.write {written buf : Bytes} (hsink : Accepts Took) (h : s.Carries Took written) :
    ∃ result t, s.write buf = .ok (result, t) ∧
      (result = buf.length → t.Carries Took (written ++ buf)) := by
  have hpos := h.pos_eq
  have hle := h.length_le
  have hflush := h.flush hsink
  unfold Buffered.write
  dsimp only
  by_cases hsmall : buf.length ≤ s.cap
  · rw [if_pos hsmall]
    by_cases hroom : s.cap - s.buffer.length ≥ buf.length
    · rw [if_pos hroom]
      obtain ⟨⟨u, hu, rfl⟩, -, -, hcap⟩ := h
      refine ⟨_, _, rfl, fun _ => ⟨⟨u, hu, (List.append_assoc _ _ _).symm⟩, hpos, ?_, hcap⟩⟩
      simp only [List.length_append]
      omega
    · -- the cache is flushed and filled again
      rw [if_neg hroom]
      by_cases hfull : (s.buffer.length : ℤ) - s.pos = s.flush.1
      · rw [if_pos hfull]
        obtain ⟨⟨u, hu, heq⟩, -, -, hcap⟩ := hflush (by omega)
        refine ⟨_, _, rfl, fun _ => ⟨⟨u, hu, ?_⟩, rfl, hsmall, hcap⟩⟩
        rw [← heq]
        simp [Buffered.flush]
      · rw [if_neg hfull]
        exact ⟨-1, _, rfl, fun h => by omega⟩
  · rw [if_neg hsmall]
    by_cases hcached : s.buffer.length ≠ s.pos
    · rw [if_pos hcached]
      by_cases hfull : (s.buffer.length : ℤ) - s.pos = s.flush.1
      · obtain ⟨result, source, hloop, hresult⟩ :=
          (hflush (by omega)).writeDirect hsink rfl (not_le.mp hsmall)
        rw [if_neg (not_not.mpr hfull), hloop]
        exact ⟨result, _, rfl, hresult⟩
      · rw [if_pos hfull]
        exact ⟨-1, _, rfl, fun h => by omega⟩
    · have hempty : s.buffer = [] := List.eq_nil_of_length_eq_zero (by omega)
      obtain ⟨result, source, hloop, hresult⟩ := h.writeDirect hsink hempty (not_le.mp hsmall)
      rw [if_neg hcached, if_neg (not_not.mpr rfl), hloop]
      exact ⟨result, _, rfl, hresult⟩

theorem Carries.callFully {written : Bytes} {c : WriteCall} (hsink : Accepts Took)
    (h : s.Carries Took written) (hcall : s.callFully c = .ok t) :
    t.Carries Took (written ++ c.data) := by
  unfold Buffered.callFully at hcall
  cases c with
  | write buf =>
    obtain ⟨result, t', hwrite, hfull⟩ := @Carries.write _ _ _ _ _ buf hsink h
    simp only [Buffered.call, hwrite] at hcall
    split_ifs at hcall with hresult
    obtain rfl := Except.ok.inj hcall
    exact hfull hresult
  | flush =>
    have hcached : s.cached = s.buffer := by rw [cached, h.pos_eq, List.drop_zero]
    simp only [Buffered.call, fullResult, hcached] at hcall
    split_ifs at hcall with hresult
    obtain rfl := Except.ok.inj hcall
    rw [WriteCall.data, List.append_nil]
    exact h.flush hsink hresult

/-- A run in which every call was reported as full. -/
theorem Carries.run {written : Bytes} {calls : List WriteCall} (hsink : Accepts Took)
    (h : s.Carries Took written) (hrun : RunWhere Buffered.callFully Unrestricted s calls t) :
    t.Carries Took (written ++ calls.flatMap WriteCall.data) := by
  induction hrun generalizing written with
  | nil => simpa using h
  | cons _ hcall _ ih =>
    rw [List.flatMap_cons, ← List.append_assoc]
    exact ih (h.callFully hsink hcall)

theorem cached_of_flush (h : s.callFully .flush = .ok t) : t.cached = [] := by
  simp only [Buffered.callFully, Buffered.call] at h
  split_ifs at h
  obtain rfl := Except.ok.inj h
  rfl

/-- What one of the two classes owes: in every run whose calls were all reported as full, the
octets that the sink took, followed by those in the cache, are those that were written, and the
cache is empty behind a flush. -/
def Transparent (Took : σ → Bytes → Prop) (step : Buffered σ → WriteCall → Except (Option Fault) (Buffered σ))
    (source : σ) (cap : ℕ) : Prop :=
  ∀ calls t, RunWhere step Unrestricted { source := source, cap := cap } calls t →
    (∃ u, Took t.source u ∧ u ++ t.cached = calls.flatMap WriteCall.data) ∧
      ∀ t', step t .flush = .ok t' → t'.cached = []

/-- Buffered writing is transparent, for a cache of any size and a sink that takes any part of
what it is given. -/
theorem transparent (hsink : Accepts Took) {source : σ} (hsource : Took source []) {cap : ℕ}
    (hcap : 0 < cap) : Transparent Took BufferedOutputStream.callFully source cap ∧
      Transparent Took BufferedStream.callFully source cap := by
  have hstart : Carries Took { source := source, cap := cap } [] :=
    ⟨⟨[], hsource, rfl⟩, rfl, Nat.zero_le _, hcap⟩
  have hboth : Transparent Took Buffered.callFully source cap := by
    intro calls t hrun
    obtain ⟨⟨u, hu, heq⟩, hpos, -⟩ := hstart.run hsink hrun
    refine ⟨⟨u, hu, ?_⟩, fun t' h => cached_of_flush h⟩
    rw [cached, hpos, List.drop_zero, heq, List.nil_append]
  exact ⟨hboth, hboth⟩

end Buffered

structure Portions where
  taken : Bytes := []
  portion : ℕ
  deriving DecidableEq

namespace Portions

instance : OutputStream Portions where
  write s data := (min s.portion data.length, { s with taken := s.taken ++ data.take s.portion })

theorem accepts : Accepts fun (s : Portions) u => s.taken = u := by
  rintro s u data rfl
  refine ⟨min s.portion data.length, min_le_right _ _, ?_, fun _ => (Nat.cast_min _ _).symm⟩
  change s.taken ++ data.take s.portion = _
  congr 1
  rw [List.take_eq_take_iff]
  omega

end Portions

theorem Buffered.transparent_portions :
    Transparent (fun (s : Portions) u => s.taken = u) BufferedOutputStream.callFully ⟨[], 3⟩ 4 ∧
      Transparent (fun (s : Portions) u => s.taken = u) BufferedStream.callFully ⟨[], 3⟩ 4 :=
  transparent Portions.accepts rfl (by decide)

end Sese.Io
