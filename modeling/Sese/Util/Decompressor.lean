import Sese.Foundation.Rounds
import Sese.Io.BufferedOutputStream
import Sese.Util.Region

/-!
# Decompression

`Decompressor::input` and `inflate` over a zlib that behaves as it is documented. The loop is left
at the end of the stream, at a stream error and after a short write, and at nothing else; what a
short write left over is named by two counters.
-/
namespace Sese

open Foundation Io

def Z_OK : ℤ := 0
def Z_STREAM_END : ℤ := 1
def Z_STREAM_ERROR : ℤ := -2
def Z_BUF_ERROR : ℤ := -5

/-- `z_stream`, less the fields for the output. -/
class ZStream (ζ : Type) where
  /-- `next_in` and `avail_in`. -/
  setInput : ζ → Bytes → ζ
  /-- `::inflate` with `Z_FINISH` and so much room: the return code, what it puts out, and the
  stream behind it. -/
  inflate : ζ → ℕ → ℤ × Bytes × ζ

/-- What zlib says of `::inflate`. In a state with `Owes z data complete` the input still
decompresses to `data`, and ends properly behind it if it is `complete`. A call puts out a part of
`data` that there is room for, at least one octet if it can, and reports the end of the stream
when there is nothing left before it and at no other time. -/
def Documented {ζ : Type} [ZStream ζ] (Owes : ζ → Bytes → Bool → Prop) : Prop :=
  ∀ (z : ζ) (data : Bytes) (complete : Bool) (room : ℕ), Owes z data complete →
    ∃ ret out rest z', ZStream.inflate z room = (ret, out, z') ∧ data = out ++ rest ∧
      out.length ≤ room ∧ (0 < room → data ≠ [] → out ≠ []) ∧ ret ≠ Z_STREAM_ERROR ∧
      (ret = Z_STREAM_END → complete ∧ rest = []) ∧ (complete → data = [] → ret = Z_STREAM_END) ∧
      Owes z' rest complete

/-- `next_out` is the place in `buffer` that it leads to. -/
structure Decompressor (ζ : Type) where
  stream : ζ
  next_out : ℕ
  avail_out : ℕ
  cap : ℕ
  length : ℕ
  read : ℕ
  buffer : Bytes

namespace Decompressor

variable {ζ σ : Type} [ZStream ζ] [OutputStream σ]

/-- The octets of new memory do not matter. -/
def new (stream : ζ) (buffer_size : ℕ) : Decompressor ζ where
  stream := stream
  next_out := 0
  avail_out := 0
  cap := buffer_size
  length := 0
  read := 0
  buffer := List.replicate buffer_size 0

/-- `avail_out` is an `unsigned int`. -/
def setOutput (d : Decompressor ζ) : Decompressor ζ :=
  { d with avail_out := d.cap % 2 ^ 32, next_out := 0 }

def input (d : Decompressor ζ) (input : Bytes) : Decompressor ζ :=
  { d with stream := ZStream.setInput d.stream input }.setOutput

/-- The first part of `inflate`: what the last call could not write is written. -/
def resume : Decompressor ζ × σ →
    Except Fault ((Decompressor ζ × σ) ⊕ (ℤ × Decompressor ζ × σ))
  | (d, out) =>
    if d.length ≠ 0 then do
      let last := toUInt64 (d.length - d.read)
      let data ← load d.buffer d.read last
      let (real_wrote, out) := OutputStream.write out data
      if last ≠ toUInt64 real_wrote then
        .ok (.inr (Z_BUF_ERROR, { d with read := toUInt64 (d.read + real_wrote) }, out))
      else
        .ok (.inl ({ d with length := 0, read := 0 }.setOutput, out))
    else .ok (.inl (d, out))

/-- A pass of the loop. `wrote` is computed with the 32 bits of an `unsigned int`. -/
def round : Decompressor ζ × σ →
    Except Fault ((Decompressor ζ × σ) ⊕ (ℤ × Decompressor ζ × σ))
  | (d, out) => do
    let (ret, data, stream) := ZStream.inflate d.stream d.avail_out
    let buffer ← store d.buffer d.next_out data
    let d := { d with
      stream := stream
      buffer := buffer
      next_out := d.next_out + data.length
      avail_out := d.avail_out - data.length }
    if ret = Z_STREAM_ERROR then .ok (.inr (Z_STREAM_ERROR, d, out))
    else do
      let wrote := (d.cap % 2 ^ 32 + 2 ^ 32 - d.avail_out) % 2 ^ 32
      let data ← load d.buffer 0 wrote
      let (real_wrote, out) := OutputStream.write out data
      if (wrote : ℤ) ≠ real_wrote then
        .ok (.inr (Z_BUF_ERROR, { d with length := wrote, read := toUInt64 real_wrote }, out))
      else if ret ≠ Z_STREAM_END then .ok (.inl (d.setOutput, out))
      else .ok (.inr (Z_OK, d.setOutput, out))

/-- `inflate`, with at most so many passes of its loop. -/
def inflate (fuel : ℕ) (t : Decompressor ζ × σ) : Except Fault (ℤ × Decompressor ζ × σ) := do
  match ← resume t with
  | .inl t => iterate .endlessLoop round fuel t
  | .inr result => .ok result

/-- So many calls of `inflate`, each of which comes back. -/
inductive Calls : ℕ → Decompressor ζ × σ → Decompressor ζ × σ → Prop
  | none (t : Decompressor ζ × σ) : Calls 0 t t
  | next {n fuel : ℕ} {s t u : Decompressor ζ × σ} {ret : ℤ} :
      Calls n s t → inflate fuel t = .ok (ret, u) → Calls (n + 1) s u

/-- Every call comes back, and what the sink accepted up to then is the beginning of `data`. -/
def Resumes (Took : σ → Bytes → Prop) (d : Decompressor ζ) (out : σ) (data : Bytes) : Prop :=
  ∀ n, ∃ t, Calls n (d, out) t ∧ ∃ u, Took t.2 u ∧ u <+: data

/-- A sink may accept any part of a write, and says how much it was. -/
def Reports (Took : σ → Bytes → Prop) : Prop :=
  ∀ (s : σ) (u data : Bytes), Took s u → ∃ k ≤ data.length,
    (OutputStream.write s data).1 = k ∧ Took (OutputStream.write s data).2 (u ++ data.take k)

variable {Owes : ζ → Bytes → Bool → Prop} {Took : σ → Bytes → Prop} {cap : ℕ} {data rest : Bytes}
  {complete : Bool} {t : Decompressor ζ × σ}

/-- The buffer is free; the input still decompresses to `rest`. -/
structure Ready (Owes : ζ → Bytes → Bool → Prop) (Took : σ → Bytes → Prop) (cap : ℕ) (data : Bytes)
    (complete : Bool) (rest : Bytes) (t : Decompressor ζ × σ) : Prop where
  cap_eq : t.1.cap = cap
  buffer : t.1.buffer.length = cap
  length : t.1.length = 0
  room : t.1.avail_out = cap % 2 ^ 32
  start : t.1.next_out = 0
  owes : Owes t.1.stream rest complete
  accepted : ∃ u, Took t.2 u ∧ u ++ rest = data

/-- The octets of the buffer between `read` and `length` are still to be written. -/
structure Short (Owes : ζ → Bytes → Bool → Prop) (Took : σ → Bytes → Prop) (cap : ℕ) (data : Bytes)
    (complete : Bool) (rest : Bytes) (t : Decompressor ζ × σ) : Prop where
  cap_eq : t.1.cap = cap
  buffer : t.1.buffer.length = cap
  length_le : t.1.length ≤ cap % 2 ^ 32
  read_lt : t.1.read < t.1.length
  owes : Owes t.1.stream rest complete
  accepted : ∃ u, Took t.2 u ∧
    u ++ (window t.1.buffer t.1.read (t.1.length - t.1.read) ++ rest) = data

/-- A pass: the sink gets what was put out, and the loop goes on unless that was the end or the
sink did not take everything. -/
theorem Ready.round_eq (hz : Documented Owes) (hsink : Reports Took)
    (h : Ready Owes Took cap data complete rest t) :
    ∃ ret out rest' t', rest = out ++ rest' ∧ out.length ≤ cap % 2 ^ 32 ∧
      (0 < cap % 2 ^ 32 → rest ≠ [] → out ≠ []) ∧
      (ret = Z_STREAM_END → complete ∧ rest' = []) ∧ (complete → rest = [] → ret = Z_STREAM_END) ∧
      (if (OutputStream.write t.2 out).1 = out.length then
        Ready Owes Took cap data complete rest' t' ∧
          round t = .ok (if ret ≠ Z_STREAM_END then .inl t' else .inr (Z_OK, t'))
      else Short Owes Took cap data complete rest' t' ∧ round t = .ok (.inr (Z_BUF_ERROR, t'))) := by
  obtain ⟨d, s⟩ := t
  obtain ⟨rfl, hbuffer, hlength, hroom, hstart, howes, u, hu, rfl⟩ := h
  dsimp only at hbuffer hlength hroom hstart howes hu ⊢
  obtain ⟨ret, out, rest', z', hinflate, rfl, hfits, hprogress, herror, hend, hends, howes'⟩ :=
    hz d.stream rest complete (d.cap % 2 ^ 32) howes
  have hmod : d.cap % 2 ^ 32 < 2 ^ 32 := Nat.mod_lt _ (by norm_num)
  have hle : d.cap % 2 ^ 32 ≤ d.cap := Nat.mod_le _ _
  have hstore : store ([] ++ d.buffer) 0 out = .ok ([] ++ (out ++ d.buffer.drop out.length)) :=
    store_left rfl (by omega)
  have hload : load ([] ++ (out ++ d.buffer.drop out.length)) 0 out.length = .ok out :=
    load_append rfl rfl
  have hwrote : (d.cap % 2 ^ 32 + 2 ^ 32 - (d.cap % 2 ^ 32 - out.length)) % 2 ^ 32 = out.length := by
    omega
  have hbuffer' : (out ++ d.buffer.drop out.length).length = d.cap := by
    rw [List.length_append, List.length_drop]
    omega
  simp only [List.nil_append] at hstore hload
  obtain ⟨k, hk, hresult, htook⟩ := hsink s u out hu
  cases hwrite : OutputStream.write s out with
  | mk real_wrote s' =>
    rw [hwrite] at hresult htook
    dsimp only at hresult htook
    subst hresult
    let filled : Decompressor ζ := { d with
      stream := z'
      buffer := out ++ d.buffer.drop out.length
      next_out := out.length
      avail_out := d.cap % 2 ^ 32 - out.length }
    have hround : round (d, s) =
        if (out.length : ℤ) ≠ k then
          .ok (.inr (Z_BUF_ERROR, { filled with length := out.length, read := toUInt64 k }, s'))
        else if ret ≠ Z_STREAM_END then .ok (.inl (filled.setOutput, s'))
        else .ok (.inr (Z_OK, filled.setOutput, s')) := by
      simp only [round, hinflate, hstart, hstore, ok_bind, if_neg herror, hroom, hwrote, hload,
        hwrite, Nat.zero_add]
      rfl
    by_cases hall : k = out.length
    · subst hall
      rw [List.take_length] at htook
      refine ⟨ret, out, rest', (filled.setOutput, s'), rfl, hfits, hprogress, hend, hends, ?_⟩
      rw [if_pos (by rw [hwrite])]
      refine ⟨⟨rfl, hbuffer', hlength, rfl, rfl, howes', _, htook, ?_⟩, ?_⟩
      · rw [List.append_assoc]
      · rw [hround, if_neg (not_not.mpr rfl)]
        split_ifs <;> rfl
    · have hne : (out.length : ℤ) ≠ k := by omega
      have hread : toUInt64 k = k := toUInt64_natCast (by omega)
      refine ⟨ret, out, rest', ({ filled with length := out.length, read := k }, s'), rfl, hfits,
        hprogress, hend, hends, ?_⟩
      rw [hwrite, if_neg hne.symm]
      refine ⟨⟨rfl, hbuffer', hfits, by dsimp only; omega, howes', _, htook, ?_⟩, ?_⟩
      · have hpending : window (out ++ d.buffer.drop out.length) k (out.length - k) = out.drop k := by
          rw [window, List.drop_append_of_le_length hk, List.take_append_of_le_length (by simp),
            List.take_of_length_le (by simp)]
        dsimp only
        rw [hpending, List.append_assoc, ← List.append_assoc (out.take k), List.take_append_drop]
      · rw [hround, if_pos hne, hread]

omit [ZStream ζ] in
theorem Ready.resume_eq (h : Ready Owes Took cap data complete rest t) : resume t = .ok (.inl t) := by
  obtain ⟨d, s⟩ := t
  rw [resume, if_neg (not_not.mpr h.length)]

omit [ZStream ζ] in
theorem Short.resume_eq (hsink : Reports Took) (h : Short Owes Took cap data complete rest t) :
    ∃ t', (Short Owes Took cap data complete rest t' ∧ resume t = .ok (.inr (Z_BUF_ERROR, t'))) ∨
      (Ready Owes Took cap data complete rest t' ∧ resume t = .ok (.inl t')) := by
  obtain ⟨d, s⟩ := t
  obtain ⟨rfl, hbuffer, hle, hlt, howes, u, hu, rfl⟩ := h
  dsimp only at hbuffer hle hlt howes hu ⊢
  have hmod : d.cap % 2 ^ 32 < 2 ^ 32 := Nat.mod_lt _ (by norm_num)
  have hcap : d.cap % 2 ^ 32 ≤ d.cap := Nat.mod_le _ _
  have hlast : toUInt64 (d.length - d.read : ℕ) = d.length - d.read := toUInt64_natCast (by omega)
  rw [Nat.cast_sub hlt.le] at hlast
  have hfits : d.read + (d.length - d.read) ≤ d.buffer.length := by omega
  have hload : load d.buffer d.read (d.length - d.read) =
      .ok (window d.buffer d.read (d.length - d.read)) := if_pos hfits
  obtain ⟨k, hk, hresult, htook⟩ := hsink s u (window d.buffer d.read (d.length - d.read)) hu
  rw [length_window hfits] at hk
  cases hwrite : OutputStream.write s (window d.buffer d.read (d.length - d.read)) with
  | mk real_wrote s' =>
    rw [hwrite] at hresult htook
    dsimp only at hresult htook
    subst hresult
    have hwrote : toUInt64 k = k := toUInt64_natCast (by omega)
    have hnonempty : d.length ≠ 0 := by omega
    by_cases hall : d.length - d.read = k
    · rw [← hall, List.take_of_length_le (length_window hfits).le] at htook
      refine ⟨({ d with length := 0, read := 0 }.setOutput, s'), .inr ⟨?_, ?_⟩⟩
      · refine ⟨rfl, hbuffer, rfl, rfl, rfl, howes, _, htook, ?_⟩
        rw [List.append_assoc]
      · rw [resume, if_pos hnonempty]
        have hsame : d.length - d.read = toUInt64 k := hall.trans hwrote.symm
        simp only [hlast, hload, ok_bind, hwrite, ← hsame, ne_eq, not_true_eq_false, if_false]
    · have hread : toUInt64 (d.read + k) = d.read + k := by
        unfold toUInt64
        omega
      have hrest : window d.buffer d.read (d.length - d.read) =
          (window d.buffer d.read (d.length - d.read)).take k ++
            window d.buffer (d.read + k) (d.length - (d.read + k)) := by
        have hsplit : d.length - d.read = k + (d.length - (d.read + k)) := by omega
        rw [window, window, List.take_take, min_eq_left hk, ← List.drop_drop, ← List.take_add, ← hsplit]
      refine ⟨({ d with read := d.read + k }, s'), .inl ⟨?_, ?_⟩⟩
      · refine ⟨rfl, hbuffer, hle, by dsimp only; omega, howes, _, htook, ?_⟩
        dsimp only
        rw [List.append_assoc, ← List.append_assoc (List.take k _), ← hrest]
      · rw [resume, if_pos hnonempty]
        simp only [hlast, hload, ok_bind, hwrite, hwrote, ne_eq, hall, not_false_eq_true, if_true, hread]

def Between (Owes : ζ → Bytes → Bool → Prop) (Took : σ → Bytes → Prop) (cap : ℕ) (data : Bytes)
    (complete : Bool) (t : Decompressor ζ × σ) : Prop :=
  ∃ rest, Ready Owes Took cap data complete rest t ∨ Short Owes Took cap data complete rest t

omit [ZStream ζ] [OutputStream σ] in
theorem Between.accepted (h : Between Owes Took cap data complete t) : ∃ u, Took t.2 u ∧ u <+: data := by
  obtain ⟨rest, h | h⟩ := h
  · obtain ⟨u, hu, rfl⟩ := h.accepted
    exact ⟨u, hu, List.prefix_append _ _⟩
  · obtain ⟨u, hu, rfl⟩ := h.accepted
    exact ⟨u, hu, List.prefix_append _ _⟩

/-- For complete input the loop comes to an end: a pass that goes on has put out an octet. -/
theorem Ready.delivers (hz : Documented Owes) (hsink : Reports Took) (hcomplete : complete)
    (hroom : cap % 2 ^ 32 = 0 → data = []) (h : Ready Owes Took cap data complete rest t) :
    ∃ ret t', Delivers round t (ret, t') ∧ Between Owes Took cap data complete t' := by
  induction hn : rest.length using Nat.strong_induction_on generalizing rest t with
  | _ n ih =>
    obtain ⟨ret, out, rest', t', rfl, -, hprogress, hend, hends, hround⟩ := h.round_eq hz hsink
    split_ifs at hround with hall hmore
    · obtain ⟨h', hround⟩ := hround
      have hne : out ++ rest' ≠ [] := fun hnil => hmore (hends hcomplete hnil)
      have hpos : 0 < cap % 2 ^ 32 := by
        refine Nat.pos_of_ne_zero fun hzero => ?_
        obtain ⟨u, -, hu⟩ := h.accepted
        rw [hroom hzero] at hu
        exact hne (List.append_eq_nil_iff.mp hu).2
      have hout := List.length_pos_iff.mpr (hprogress hpos hne)
      obtain ⟨ret', t'', hdelivers, hbetween⟩ :=
        ih rest'.length (by rw [← hn, List.length_append]; omega) h' rfl
      exact ⟨ret', t'', .more hround hdelivers, hbetween⟩
    · exact ⟨_, _, .done hround.2, _, .inl hround.1⟩
    · exact ⟨_, _, .done hround.2, _, .inr hround.1⟩

theorem Between.inflate (hz : Documented Owes) (hsink : Reports Took) (hcomplete : complete)
    (hroom : cap % 2 ^ 32 = 0 → data = []) (h : Between Owes Took cap data complete t) :
    ∃ fuel ret t', inflate fuel t = .ok (ret, t') ∧ Between Owes Took cap data complete t' := by
  have hloop : ∀ {rest s}, Ready Owes Took cap data complete rest s → resume t = .ok (.inl s) →
      ∃ fuel ret t', Decompressor.inflate fuel t = .ok (ret, t') ∧
        Between Owes Took cap data complete t' := by
    intro rest s hs hresume
    obtain ⟨ret, t', hdelivers, hbetween⟩ := hs.delivers hz hsink hcomplete hroom
    obtain ⟨fuel, hfuel⟩ := (delivers_iff_iterate .endlessLoop).mp hdelivers
    exact ⟨fuel, ret, t', by rw [Decompressor.inflate, hresume]; exact hfuel, hbetween⟩
  obtain ⟨rest, h | h⟩ := h
  · exact hloop h h.resume_eq
  · obtain ⟨t', ⟨h', hresume⟩ | ⟨h', hresume⟩⟩ := h.resume_eq hsink
    · exact ⟨0, _, t', by rw [Decompressor.inflate, hresume]; rfl, rest, .inr h'⟩
    · exact hloop h' hresume

/-- For complete input every call comes back and the sink has accepted the beginning of the data. -/
theorem Between.resumes {d : Decompressor ζ} {out : σ} (hz : Documented Owes) (hsink : Reports Took)
    (hcomplete : complete) (hroom : cap % 2 ^ 32 = 0 → data = [])
    (h : Between Owes Took cap data complete (d, out)) : Resumes Took d out data := by
  have hcalls : ∀ n, ∃ t, Calls n (d, out) t ∧ Between Owes Took cap data complete t := by
    intro n
    induction n with
    | zero => exact ⟨_, .none _, h⟩
    | succ n ih =>
      obtain ⟨t, hcalls, hbetween⟩ := ih
      obtain ⟨fuel, ret, t', hinflate, hbetween'⟩ := hbetween.inflate hz hsink hcomplete hroom
      exact ⟨t', .next hcalls hinflate, hbetween'⟩
  intro n
  obtain ⟨t, hcalls, hbetween⟩ := hcalls n
  exact ⟨t, hcalls, hbetween.accepted⟩

omit [OutputStream σ] in
theorem input_ready {stream : ζ} {buffer_size : ℕ} {input : Bytes} {out : σ}
    (howes : Owes (ZStream.setInput stream input) data complete) (hout : Took out []) :
    Ready Owes Took buffer_size data complete data ((new stream buffer_size).input input, out) where
  cap_eq := rfl
  buffer := List.length_replicate
  length := rfl
  room := rfl
  start := rfl
  owes := howes
  accepted := ⟨[], hout, rfl⟩

structure Unlimited where
  accepted : Bytes := []
  deriving DecidableEq

instance : OutputStream Unlimited where
  write s data := (data.length, ⟨s.accepted ++ data⟩)

def Unlimited.Has (s : Unlimited) (u : Bytes) : Prop := s.accepted = u

theorem Unlimited.start : Has {} [] := rfl

theorem Unlimited.reports : Reports Unlimited.Has := by
  rintro s u data rfl
  exact ⟨data.length, le_rfl, rfl, by rw [List.take_length]; rfl⟩

/-- The input does not end, or there is no room for what is to be put out. -/
def Endless (cap : ℕ) (complete : Bool) (rest : Bytes) : Prop :=
  complete = false ∨ cap % 2 ^ 32 = 0 ∧ rest ≠ []

theorem Ready.goes_on {t : Decompressor ζ × Unlimited} (hz : Documented Owes)
    (h : Ready Owes Unlimited.Has cap data complete rest t)
    (hendless : Endless cap complete rest) : ∃ rest' t', round t = .ok (.inl t') ∧
      Ready Owes Unlimited.Has cap data complete rest' t' ∧
      Endless cap complete rest' := by
  obtain ⟨ret, out, rest', t', rfl, hfits, -, hend, -, hround⟩ := h.round_eq hz Unlimited.reports
  have hendless' : Endless cap complete rest' := by
    rcases hendless with hcut | ⟨hzero, hne⟩
    · exact .inl hcut
    · have hout : out = [] := List.eq_nil_of_length_eq_zero (by omega)
      subst hout
      exact .inr ⟨hzero, hne⟩
  have hmore : ret ≠ Z_STREAM_END := by
    intro hret
    obtain ⟨hcomplete, hnil⟩ := hend hret
    rcases hendless' with hcut | ⟨-, hne⟩
    · exact absurd hcomplete (by rw [hcut]; decide)
    · exact hne hnil
  have hall : (OutputStream.write t.2 out).1 = out.length := rfl
  rw [if_pos hall, if_pos hmore] at hround
  exact ⟨rest', t', hround.2, hround.1, hendless'⟩

theorem Ready.not_delivers {t : Decompressor ζ × Unlimited} {r : ℤ × Decompressor ζ × Unlimited}
    (hz : Documented Owes)
    (h : Ready Owes Unlimited.Has cap data complete rest t)
    (hendless : Endless cap complete rest) : ¬ Delivers round t r := by
  intro hdelivers
  refine hdelivers.invariant
    (I := fun t => ∃ rest, Ready Owes Unlimited.Has cap data complete rest t ∧
      Endless cap complete rest) (P := fun _ => False) ?_ ?_ ⟨rest, h, hendless⟩
  · rintro s s' ⟨rest, hs, hends⟩ hround
    obtain ⟨rest', t', hround', ht', hends'⟩ := hs.goes_on hz hends
    obtain rfl := Sum.inl.inj (Except.ok.inj (hround.symm.trans hround'))
    exact ⟨rest', ht', hends'⟩
  · rintro s r ⟨rest, hs, hends⟩ hround
    obtain ⟨rest', t', hround', -⟩ := hs.goes_on hz hends
    cases hround.symm.trans hround'

theorem Ready.not_resumes {d : Decompressor ζ} {out : Unlimited} (hz : Documented Owes)
    (h : Ready Owes Unlimited.Has cap data complete rest (d, out))
    (hendless : Endless cap complete rest) : ¬ Resumes Unlimited.Has d out data := by
  intro hresumes
  obtain ⟨t, hcalls, -⟩ := hresumes 1
  cases hcalls with
  | next hnone hinflate =>
    cases hnone
    rw [inflate, h.resume_eq, ok_bind] at hinflate
    exact h.not_delivers hz hendless ((delivers_iff_iterate .endlessLoop).mpr ⟨_, hinflate⟩)

/-- Whatever the input and the size of the buffer: every call comes back and nothing is lost or
repeated, for every sink that may accept any part of a write, if and only if the input is
complete, and there is room if there is anything to put out. -/
theorem resumes_iff_complete (hz : Documented Owes) (stream : ζ) (buffer_size : ℕ) (input : Bytes)
    (howes : Owes (ZStream.setInput stream input) data complete) :
    (∀ (σ : Type) [OutputStream σ] (Took : σ → Bytes → Prop) (out : σ), Reports Took → Took out [] →
      Resumes Took ((new stream buffer_size).input input) out data) ↔
      complete ∧ (buffer_size % 2 ^ 32 = 0 → data = []) := by
  constructor
  · intro hresumes
    by_contra hnot
    have hendless : Endless buffer_size complete data := by
      by_cases hcomplete : complete = true
      · right
        by_contra hroom
        rw [not_and_not_right] at hroom
        exact hnot ⟨hcomplete, hroom⟩
      · exact .inl (Bool.eq_false_iff.mpr hcomplete)
    exact (input_ready howes Unlimited.start).not_resumes hz hendless
      (hresumes Unlimited Unlimited.Has {} Unlimited.reports Unlimited.start)
  · rintro ⟨hcomplete, hroom⟩ σ _ Took out hsink hout
    exact Between.resumes hz hsink hcomplete hroom ⟨data, .inl (input_ready howes hout)⟩

/-- The state of a zlib that is given a stream with one stored block of less than 256 octets: what
it still puts out, and whether the end is behind it. -/
structure Stored where
  left : Bytes := []
  complete : Bool := false
  deriving DecidableEq

namespace Stored

def adler32 (data : Bytes) : Bytes :=
  let (a, b) : ℕ × ℕ := data.foldl (fun (a, b) octet =>
    ((a + octet.toNat) % 65521, (b + (a + octet.toNat) % 65521) % 65521)) (1, 0)
  toBigEndian32 (b * 2 ^ 16 + a)

/-- The header of the stream and that of the block, the octets of the block, the check value. -/
def decode (input : Bytes) : Stored :=
  let len := input.getD 3 0
  let data := (input.drop 7).take len.toNat
  if input.take 7 = [0x78, 0x01, 0x01, len, 0, ~~~len, 0xFF] then
    ⟨data, decide ((input.drop (7 + len.toNat)).take 4 = adler32 data)⟩
  else {}

instance : ZStream Stored where
  setInput _ input := decode input
  inflate z room :=
    (if z.complete ∧ z.left.length ≤ room then Z_STREAM_END else Z_BUF_ERROR, z.left.take room,
      ⟨z.left.drop room, z.complete⟩)

theorem documented : Documented fun (z : Stored) data complete => z = ⟨data, complete⟩ := by
  rintro _ data complete room rfl
  refine ⟨_, data.take room, data.drop room, ⟨data.drop room, complete⟩, rfl,
    (List.take_append_drop room data).symm, List.length_take_le room data, ?_, ?_, ?_, ?_, rfl⟩
  · intro hroom hne hnil
    rcases List.take_eq_nil_iff.mp hnil with hzero | hnil
    · omega
    · exact hne hnil
  · dsimp only
    split_ifs <;> decide
  · dsimp only
    split_ifs with hend
    · exact fun _ => ⟨hend.1, List.drop_eq_nil_of_le hend.2⟩
    · exact fun h => absurd h (by decide)
  · rintro hcomplete rfl
    exact if_pos ⟨hcomplete, Nat.zero_le room⟩

end Stored

/-- The stream of one octet. -/
theorem resumes_iff_complete_stored :
    (∀ (σ : Type) [OutputStream σ] (Took : σ → Bytes → Prop) (out : σ), Reports Took → Took out [] →
      Resumes Took ((new ({} : Stored) 8).input
        [0x78, 0x01, 0x01, 0x01, 0x00, 0xFE, 0xFF, 0x61, 0x00, 0x62, 0x00, 0x62]) out [0x61]) ↔
      true ∧ (8 % 2 ^ 32 = 0 → ([0x61] : Bytes) = []) :=
  resumes_iff_complete Stored.documented {} 8 _ (by decide)

/-- The same stream without its last octet. -/
theorem truncated_never_ends :
    ¬ Resumes Unlimited.Has ((new ({} : Stored) 8).input
      [0x78, 0x01, 0x01, 0x01, 0x00, 0xFE, 0xFF, 0x61, 0x00, 0x62, 0x00]) {} [0x61] := by
  have howes : ZStream.setInput ({} : Stored)
      [0x78, 0x01, 0x01, 0x01, 0x00, 0xFE, 0xFF, 0x61, 0x00, 0x62, 0x00] = ⟨[0x61], false⟩ := by decide
  exact (input_ready howes Unlimited.start).not_resumes Stored.documented (.inl rfl)

end Decompressor
end Sese
