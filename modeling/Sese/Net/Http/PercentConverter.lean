import Sese.Foundation.Outcome
import Sese.Net.Http.RequestUrl

/-!
# Percent coding in memory

`PercentConverter` reads C strings from memory octet by octet, and a `%` makes it look at two more.
The overloads for strings and for streams have the same loops; they differ in what is left of the
result when an escape is malformed.
-/
namespace Sese.Net.Http
namespace PercentConverter

open Foundation

/-- The loops of `encode`, from the octet that `p` points to; `escape` is how an overload appends the
two digits of an octet. -/
def encodeAt (escape : UInt8 → UInt8 → Bytes) : Bytes → Bytes → Except Fault Bytes
  | [], _ => .error .overread
  | ch :: p, dest =>
    if ch = 0 then .ok dest
    else if (ch &&& 0b10000000) >>> 7 = 0 then
      if ch ∈ URL_EXCLUDE_CHARS then
        encodeAt escape p (dest ++ escape (getEncodeChar (ch / 0x10)) (getEncodeChar (ch % 0x10)))
      else encodeAt escape p (dest ++ [ch])
    else encodeAt escape p (dest ++ escape (getEncodeChar (ch / 0x10)) (getEncodeChar (ch % 0x10)))

/-- `encode` to a stream, which gets three octets of the buffer. -/
def encodeStream (src : Bytes) : Except Fault Bytes := encodeAt (fun high low => [37, high, low]) src []

/-- `encode` to a string, which gets the buffer as a C string. -/
def encodeString (src : Bytes) : Except Fault Bytes :=
  encodeAt (fun high low => cstr [37, high, low, 0]) src []

/-- The loops of `decode`, from the octet that `p` points to: whether they came to the end, and what
was appended until then. -/
def decodeAt : Bytes → Bytes → Except Fault (Bool × Bytes)
  | [], _ => .error .overread
  | ch :: p, dest =>
    if ch = 0 then .ok (true, dest)
    else if ch = 37 then
      match p with
      | [] => .error .overread
      | p1 :: p =>
        match hexChar p1 with
        | none => .ok (false, dest)
        | some ch1 =>
          match p with
          | [] => .error .overread
          | p2 :: p =>
            match hexChar p2 with
            | none => .ok (false, dest)
            | some ch2 => decodeAt p (dest ++ [ch1 * 0x10 + ch2])
    else decodeAt p (dest ++ [ch])

/-- `decode` to a stream: the result, and what was written. -/
def decodeStream (src : Bytes) : Except Fault (Bool × Bytes) := decodeAt src []

/-- `decode` to a string. -/
def decodeString (src : Bytes) : Except Fault Bytes :=
  (decodeAt src []).map fun r => if r.1 then r.2 else []

variable {s : Bytes}

theorem high_bit_iff (ch : UInt8) : (ch &&& 0b10000000) >>> 7 = 0 ↔ ¬ 128 ≤ ch := by
  refine forall_octet (P := fun ch => (ch &&& 0b10000000) >>> 7 = 0 ↔ ¬ 128 ≤ ch) ?_ ch
  decide +kernel

theorem encodeAt_eq {escape : UInt8 → UInt8 → Bytes}
    (hescape : ∀ ch : UInt8, escape (getEncodeChar (ch / 0x10)) (getEncodeChar (ch % 0x10)) =
      [37, getEncodeChar (ch / 0x10), getEncodeChar (ch % 0x10)])
    (h : (0 : UInt8) ∉ s) (dest : Bytes) :
    encodeAt escape (s ++ [0]) dest = .ok (dest ++ s.flatMap encodeOctet) := by
  induction s generalizing dest with
  | nil => simp [encodeAt]
  | cons ch s ih =>
    rw [List.mem_cons, not_or] at h
    rw [List.cons_append, encodeAt, if_neg (Ne.symm h.1), List.flatMap_cons, ← List.append_assoc,
      encodeOctet]
    simp only [ih h.2, hescape, high_bit_iff]
    by_cases hhigh : 128 ≤ ch
    · rw [if_neg (not_not.mpr hhigh), if_pos (.inl hhigh)]
    · rw [if_pos hhigh]
      split_ifs with hexcluded hescaped hescaped
      · rfl
      · exact absurd (.inr hexcluded) hescaped
      · exact absurd hescaped (not_or.mpr ⟨hhigh, hexcluded⟩)
      · rfl

theorem cstr_escape (ch : UInt8) :
    cstr [37, getEncodeChar (ch / 0x10), getEncodeChar (ch % 0x10), 0] =
      [37, getEncodeChar (ch / 0x10), getEncodeChar (ch % 0x10)] := by
  refine forall_octet (P := fun ch => cstr [37, getEncodeChar (ch / 0x10), getEncodeChar (ch % 0x10),
    0] = [37, getEncodeChar (ch / 0x10), getEncodeChar (ch % 0x10)]) ?_ ch
  decide +kernel

theorem encodeStream_eq (h : (0 : UInt8) ∉ s) : encodeStream (s ++ [0]) = .ok (percentEncode s) := by
  rw [encodeStream, encodeAt_eq (fun _ => rfl) h, List.nil_append, percentEncode, cstr_eq_self h]

theorem encodeString_eq (h : (0 : UInt8) ∉ s) : encodeString (s ++ [0]) = .ok (percentEncode s) := by
  rw [encodeString, encodeAt_eq cstr_escape h, List.nil_append, percentEncode, cstr_eq_self h]

def Escape (rest : Bytes) : Prop :=
  ∃ h₁ h₀ more ch₁ ch₀, rest = h₁ :: h₀ :: more ∧ hexChar h₁ = some ch₁ ∧ hexChar h₀ = some ch₀

/-- What the loop does with a C string: all of it is decoded, or the part in front of a malformed
escape. -/
inductive Decoded : Bytes → Bool → Bytes → Prop
  | whole {s out : Bytes} (h : decodeLoop s = some out) : Decoded s true out
  | part {front rest out : Bytes} (h : decodeLoop front = some out) (hrest : ¬ Escape rest) :
      Decoded (front ++ 37 :: rest) false out

theorem hexChar_zero : hexChar 0 = none := by decide

theorem decodeLoop_plain {ch : UInt8} (h : ch ≠ 37) (s : Bytes) :
    decodeLoop (ch :: s) = (decodeLoop s).map (ch :: ·) := by
  cases s with
  | nil => simp [decodeLoop, h]
  | cons c s =>
    cases s with
    | nil => simp [decodeLoop, h]
    | cons d s => simp [decodeLoop, h]

theorem decodeLoop_escape {h₁ h₀ ch₁ ch₀ : UInt8} (hhigh : hexChar h₁ = some ch₁)
    (hlow : hexChar h₀ = some ch₀) (s : Bytes) :
    decodeLoop (37 :: h₁ :: h₀ :: s) = (decodeLoop s).map ((ch₁ * 0x10 + ch₀) :: ·) := by
  rw [decodeLoop, if_pos rfl]
  simp only [hhigh, hlow, Option.bind_eq_bind, Option.bind_some]
  cases decodeLoop s <;> rfl

theorem Decoded.plain {ch : UInt8} (hch : ch ≠ 37) {ok : Bool} {out : Bytes} (h : Decoded s ok out) :
    Decoded (ch :: s) ok (ch :: out) := by
  cases h with
  | whole h => exact .whole (by rw [decodeLoop_plain hch, h]; rfl)
  | @part front rest _ h hrest =>
    have hfront : decodeLoop (ch :: front) = some (ch :: out) := by
      rw [decodeLoop_plain hch, h]
      rfl
    exact .part hfront hrest

theorem Decoded.escape {h₁ h₀ ch₁ ch₀ : UInt8} (hhigh : hexChar h₁ = some ch₁)
    (hlow : hexChar h₀ = some ch₀) {ok : Bool} {out : Bytes} (h : Decoded s ok out) :
    Decoded (37 :: h₁ :: h₀ :: s) ok ((ch₁ * 0x10 + ch₀) :: out) := by
  cases h with
  | whole h => exact .whole (by rw [decodeLoop_escape hhigh hlow, h]; rfl)
  | @part front rest _ h hrest =>
    have hfront : decodeLoop (37 :: h₁ :: h₀ :: front) = some ((ch₁ * 0x10 + ch₀) :: out) := by
      rw [decodeLoop_escape hhigh hlow, h]
      rfl
    exact .part hfront hrest

theorem decodeAt_plain {ch : UInt8} (hzero : ch ≠ 0) (hpercent : ch ≠ 37) (p dest : Bytes) :
    decodeAt (ch :: p) dest = decodeAt p (dest ++ [ch]) := by
  rw [decodeAt.eq_def]
  simp only [hzero, hpercent, if_false]

/-- The loop ends at the NUL or in front of it. The octet behind a `%` is looked at first, and a NUL is
no digit. -/
theorem decodeAt_decoded (h : (0 : UInt8) ∉ s) (dest : Bytes) :
    ∃ ok out, decodeAt (s ++ [0]) dest = .ok (ok, dest ++ out) ∧ Decoded s ok out := by
  induction hn : s.length using Nat.strongRecOn generalizing s dest with
  | ind n ih =>
    cases s with
    | nil => exact ⟨true, [], by simp [decodeAt], .whole rfl⟩
    | cons ch s =>
      rw [List.mem_cons, not_or] at h
      obtain ⟨hch, h⟩ := h
      by_cases hpercent : ch = 37
      · subst hpercent
        have hnil : decodeLoop [] = some [] := rfl
        have hmalformed : ¬ Escape s → Decoded (37 :: s) false [] := .part hnil
        cases s with
        | nil =>
          refine ⟨false, [], by simp [decodeAt, hexChar_zero], hmalformed ?_⟩
          rintro ⟨h₁, h₀, more, ch₁, ch₀, hs, -⟩
          cases hs
        | cons h₁ s =>
          cases hhigh : hexChar h₁ with
          | none =>
            refine ⟨false, [], by simp [decodeAt, hhigh], hmalformed ?_⟩
            rintro ⟨h₁', h₀, more, ch₁, ch₀, hs, hsome, -⟩
            cases hs
            rw [hhigh] at hsome
            cases hsome
          | some ch₁ =>
            cases s with
            | nil =>
              refine ⟨false, [], by simp [decodeAt, hhigh, hexChar_zero], hmalformed ?_⟩
              rintro ⟨h₁', h₀, more, ch₁, ch₀, hs, -⟩
              cases hs
            | cons h₀ s =>
              cases hlow : hexChar h₀ with
              | none =>
                refine ⟨false, [], by simp [decodeAt, hhigh, hlow], hmalformed ?_⟩
                rintro ⟨h₁', h₀', more, ch₁, ch₀, hs, -, hsome⟩
                cases hs
                rw [hlow] at hsome
                cases hsome
              | some ch₀ =>
                simp only [List.mem_cons, not_or] at h
                obtain ⟨ok, out, hdecode, hdecoded⟩ :=
                  ih s.length (by simp only [List.length_cons] at hn; omega) h.2.2
                    (dest ++ [ch₁ * 0x10 + ch₀]) rfl
                refine ⟨ok, (ch₁ * 0x10 + ch₀) :: out, ?_, hdecoded.escape hhigh hlow⟩
                simp only [List.cons_append, decodeAt, hhigh, hlow, hdecode]
                simp
      · obtain ⟨ok, out, hdecode, hdecoded⟩ :=
          ih s.length (by simp only [List.length_cons] at hn; omega) h (dest ++ [ch]) rfl
        refine ⟨ok, ch :: out, ?_, hdecoded.plain hpercent⟩
        rw [List.cons_append, decodeAt_plain (Ne.symm hch) hpercent, hdecode, List.append_assoc,
          List.singleton_append]

theorem decodeAt_encodeOctet {b : UInt8} (hb : b ≠ 0) (p dest : Bytes) :
    decodeAt (encodeOctet b ++ p) dest = decodeAt p (dest ++ [b]) := by
  unfold encodeOctet
  split_ifs with hescaped
  · obtain ⟨hhigh, hlow, hvalue⟩ := hexChar_getEncodeChar b
    change decodeAt (37 :: getEncodeChar (b / 0x10) :: getEncodeChar (b % 0x10) :: p) dest = _
    simp only [decodeAt, hhigh, hlow, hvalue]
    rfl
  · have hpercent : b ≠ 37 := by
      rintro rfl
      exact hescaped (.inr percent_mem_excluded)
    exact decodeAt_plain hb hpercent p dest

theorem decodeAt_encode (h : (0 : UInt8) ∉ s) (dest : Bytes) :
    decodeAt (s.flatMap encodeOctet ++ [0]) dest = .ok (true, dest ++ s) := by
  induction s generalizing dest with
  | nil => simp [decodeAt]
  | cons b s ih =>
    rw [List.mem_cons, not_or] at h
    rw [List.flatMap_cons, List.append_assoc, decodeAt_encodeOctet (Ne.symm h.1), ih h.2,
      List.append_assoc, List.singleton_append]

/-- What the four overloads do with a C string. -/
theorem overloads (h : (0 : UInt8) ∉ s) :
    (∃ encoded, encodeString (s ++ [0]) = .ok encoded ∧ encodeStream (s ++ [0]) = .ok encoded ∧
      (0 : UInt8) ∉ encoded ∧ decodeString (encoded ++ [0]) = .ok s) ∧
    ∃ ok out, decodeStream (s ++ [0]) = .ok (ok, out) ∧
      decodeString (s ++ [0]) = .ok (if ok then out else []) ∧ Decoded s ok out := by
  constructor
  · refine ⟨_, encodeString_eq h, encodeStream_eq h, not_mem_percentEncode h (by decide), ?_⟩
    rw [decodeString, percentEncode, cstr_eq_self h, decodeAt_encode h]
    rfl
  · obtain ⟨ok, out, hdecode, hdecoded⟩ := decodeAt_decoded h []
    rw [List.nil_append] at hdecode
    exact ⟨ok, out, hdecode, by rw [decodeString, hdecode]; rfl, hdecoded⟩

theorem overloads_half_escape :
    (∃ encoded, encodeString [97, 37, 54, 0] = .ok encoded ∧ encodeStream [97, 37, 54, 0] = .ok encoded ∧
      (0 : UInt8) ∉ encoded ∧ decodeString (encoded ++ [0]) = .ok [97, 37, 54]) ∧
    ∃ ok out, decodeStream [97, 37, 54, 0] = .ok (ok, out) ∧
      decodeString [97, 37, 54, 0] = .ok (if ok then out else []) ∧ Decoded [97, 37, 54] ok out :=
  overloads (s := [97, 37, 54]) (by decide)

/-- The stream keeps what was written in front of a malformed escape. -/
theorem half_escape_differs :
    ¬ ∀ s : Bytes, (0 : UInt8) ∉ s →
      (decodeStream (s ++ [0])).map Prod.snd = decodeString (s ++ [0]) := by
  intro h
  have hsame := h [97, 37] (by decide)
  revert hsame
  decide

end PercentConverter
end Sese.Net.Http
