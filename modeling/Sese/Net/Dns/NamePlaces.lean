import Sese.Foundation.Orbit
import Sese.Net.Dns.DnsPackage

/-!
# The places that the decoding of a name visits

A place is the offset of a name and the 16 bit index of the loop. `Place.next` is where
the loop goes on after it: behind the label, or at the target of the pointer. `NameEnds`
says that a name is accepted and what the decoder takes for its end, which is the zero
behind the last label or the octet behind the first pointer.
-/
namespace Sese

open Foundation

namespace DnsPackage

structure Place where
  offset : ℕ
  pos : ℕ
  deriving DecidableEq, Repr

def Place.index (p : Place) : ℕ := p.offset + p.pos

section

variable (m : ℕ → UInt8) (length : ℕ)

def targetAt (i : ℕ) : ℕ := pointerTarget (m i) (m (i + 1))

def Place.next (p : Place) : Option Place :=
  if m p.index = 0 then none
  else if isPointer (m p.index) then
    if length < targetAt m p.index then none else some ⟨targetAt m p.index, 0⟩
  else if length < p.offset + (m p.index).toNat + 1 then none
  else some ⟨p.offset, (p.pos + (m p.index).toNat + 1) % 65536⟩

/-- From index `pos` of the name at `offset` on the labels are accepted, those that pointers
lead to are not empty, and `e` is the end. -/
inductive NameEnds : ℕ → ℕ → ℕ → Prop
  | terminator {offset pos : ℕ} : m (offset + pos) = 0 → NameEnds offset pos (offset + pos)
  | pointer {offset pos e : ℕ} : m (offset + pos) ≠ 0 → isPointer (m (offset + pos)) →
      targetAt m (offset + pos) ≤ length → m (targetAt m (offset + pos)) ≠ 0 →
      NameEnds (targetAt m (offset + pos)) 0 e →
      NameEnds offset pos (offset + (pos + 2) % 65536)
  | label {offset pos e : ℕ} : m (offset + pos) ≠ 0 → ¬ isPointer (m (offset + pos)) →
      offset + (m (offset + pos)).toNat + 1 ≤ length →
      NameEnds offset ((pos + (m (offset + pos)).toNat + 1) % 65536) e → NameEnds offset pos e

/-- The octets that the decoder takes at this place belong to the datagram: the first one, the
second one of a pointer, and those of a label that it accepts. -/
def Contained (p : Place) : Prop :=
  p.index < length ∧
  (isPointer (m p.index) → p.index + 1 < length) ∧
  (¬ isPointer (m p.index) → p.offset + (m p.index).toNat + 1 ≤ length →
    p.index + (m p.index).toNat < length)

end

variable {m : ℕ → UInt8} {length : ℕ}

theorem isPointer_ne_zero {b : UInt8} (h : isPointer b) : b ≠ 0 := by
  rintro rfl
  cases h

theorem pointerTarget_lt (b b' : UInt8) : pointerTarget b b' < 16384 :=
  Nat.and_lt_two_pow _ (by decide : 0x3FFF < 2 ^ 14)

theorem readBytes_of_ok {octet : Octets} {pos n : ℕ}
    (h : ∀ i, pos ≤ i → i < pos + n → octet i = .ok (m i)) :
    readBytes octet pos n = .ok ((List.range n).map fun i => m (pos + i)) := by
  induction n generalizing pos with
  | zero => rfl
  | succ n ih =>
    rw [readBytes, h pos (Nat.le_refl _) (by omega), ok_bind,
      ih (fun i hi hlt => h i (by omega) (by omega)), ok_bind, List.range_succ_eq_map]
    simp [Nat.add_comm, Nat.add_left_comm]

@[simp] theorem memory_apply (i : ℕ) : memory m i = .ok (m i) := rfl

theorem within_of_lt {i : ℕ} (h : i < length) : within m length i = .ok (m i) := if_pos h

theorem within_of_le {i : ℕ} (h : length ≤ i) : within m length i = .error .overread :=
  if_neg (not_lt.mpr h)

theorem readBytes_memory (pos n : ℕ) :
    readBytes (memory m) pos n = .ok ((List.range n).map fun i => m (pos + i)) :=
  readBytes_of_ok fun _ _ _ => rfl

theorem readBytes_within {pos n : ℕ} (h : pos + n ≤ length) :
    readBytes (within m length) pos n = .ok ((List.range n).map fun i => m (pos + i)) :=
  readBytes_of_ok fun _ _ hi => within_of_lt (by omega)

theorem readBytes_within_beyond {pos n : ℕ} (hn : 0 < n) (h : length < pos + n) :
    readBytes (within m length) pos n = .error .overread := by
  induction n generalizing pos with
  | zero => omega
  | succ n ih =>
    by_cases hpos : pos < length
    · rw [readBytes, within_of_lt hpos, ok_bind, ih (by omega) (by omega)]
      rfl
    · rw [readBytes, within_of_le (not_lt.mp hpos)]
      rfl

section Round

variable {octet : Octets} {n offset pos : ℕ} {first : Bool} {text : Bytes} {b b' : UInt8}

theorem wordsLoop_round (octet : Octets) (length n offset pos : ℕ) (first : Bool) (text : Bytes) :
    wordsLoop octet length (n + 1) offset pos first text =
      octet (offset + pos) >>= fun b =>
        if b = 0 then .ok (text, offset + pos)
        else if isPointer b then
          octet (offset + pos + 1) >>= fun b' =>
            if length < pointerTarget b b' then .ok ([], offset)
            else wordsLoop octet length n (pointerTarget b b') 0 true [] >>= fun sub =>
              if sub.1 = [] then .ok ([], offset)
              else .ok (dotted first text ++ sub.1, offset + (pos + 2) % 65536)
        else if length < offset + b.toNat + 1 then .ok ([], offset)
        else readBytes octet (offset + pos + 1) b.toNat >>= fun label =>
          wordsLoop octet length n offset ((pos + b.toNat + 1) % 65536) false
            (dotted first text ++ label) := rfl

theorem wordsLoop_terminator (h : octet (offset + pos) = .ok 0) :
    wordsLoop octet length (n + 1) offset pos first text = .ok (text, offset + pos) := by
  rw [wordsLoop_round, h, ok_bind, if_pos rfl]

theorem wordsLoop_overread (h : octet (offset + pos) = .error .overread) :
    wordsLoop octet length (n + 1) offset pos first text = .error .overread := by
  rw [wordsLoop_round, h, error_bind]

theorem wordsLoop_pointer_overread (h : octet (offset + pos) = .ok b) (hb : isPointer b)
    (h' : octet (offset + pos + 1) = .error .overread) :
    wordsLoop octet length (n + 1) offset pos first text = .error .overread := by
  rw [wordsLoop_round, h, ok_bind, if_neg (isPointer_ne_zero hb), if_pos hb, h', error_bind]

theorem wordsLoop_pointer_refused (h : octet (offset + pos) = .ok b) (hb : isPointer b)
    (h' : octet (offset + pos + 1) = .ok b') (ht : length < pointerTarget b b') :
    wordsLoop octet length (n + 1) offset pos first text = .ok ([], offset) := by
  rw [wordsLoop_round, h, ok_bind, if_neg (isPointer_ne_zero hb), if_pos hb, h', ok_bind, if_pos ht]

/-- What a name is after a pointer, given the name that the pointer leads to. -/
def followed (offset pos : ℕ) (first : Bool) (text : Bytes) (sub : Bytes × ℕ) : Bytes × ℕ :=
  if sub.1 = [] then ([], offset)
  else (dotted first text ++ sub.1, offset + (pos + 2) % 65536)

theorem wordsLoop_pointer (h : octet (offset + pos) = .ok b) (hb : isPointer b)
    (h' : octet (offset + pos + 1) = .ok b') (ht : pointerTarget b b' ≤ length) :
    wordsLoop octet length (n + 1) offset pos first text =
      wordsLoop octet length n (pointerTarget b b') 0 true [] >>= fun sub =>
        .ok (followed offset pos first text sub) := by
  rw [wordsLoop_round, h, ok_bind, if_neg (isPointer_ne_zero hb), if_pos hb, h', ok_bind,
    if_neg (not_lt.mpr ht)]
  congr 1
  funext sub
  obtain ⟨sub, e⟩ := sub
  dsimp only [followed]
  split_ifs with hsub
  · rfl
  · rfl

theorem wordsLoop_label_refused (h : octet (offset + pos) = .ok b) (hb : ¬ isPointer b)
    (hz : b ≠ 0) (ht : length < offset + b.toNat + 1) :
    wordsLoop octet length (n + 1) offset pos first text = .ok ([], offset) := by
  rw [wordsLoop_round, h, ok_bind, if_neg hz, if_neg hb, if_pos ht]

theorem wordsLoop_label (h : octet (offset + pos) = .ok b) (hb : ¬ isPointer b)
    (hz : b ≠ 0) (ht : offset + b.toNat + 1 ≤ length) :
    wordsLoop octet length (n + 1) offset pos first text =
      readBytes octet (offset + pos + 1) b.toNat >>= fun label =>
        wordsLoop octet length n offset ((pos + b.toNat + 1) % 65536) false
          (dotted first text ++ label) := by
  rw [wordsLoop_round, h, ok_bind, if_neg hz, if_neg hb, if_neg (not_lt.mpr ht)]

end Round

/-- What one round does at a place whose octets can be read. -/
inductive Round (octet : Octets) (m : ℕ → UInt8) (length n offset pos : ℕ) (first : Bool)
    (text : Bytes) : Prop
  | terminator (hz : m (offset + pos) = 0) (hnext : Place.next m length ⟨offset, pos⟩ = none)
      (hloop : wordsLoop octet length (n + 1) offset pos first text = .ok (text, offset + pos))
  | refused (hnot : ∀ e, ¬ NameEnds m length offset pos e)
      (hnext : Place.next m length ⟨offset, pos⟩ = none)
      (hloop : wordsLoop octet length (n + 1) offset pos first text = .ok ([], offset))
  | pointer (hb : isPointer (m (offset + pos))) (ht : targetAt m (offset + pos) ≤ length)
      (hnext : Place.next m length ⟨offset, pos⟩ = some ⟨targetAt m (offset + pos), 0⟩)
      (hloop : wordsLoop octet length (n + 1) offset pos first text =
        wordsLoop octet length n (targetAt m (offset + pos)) 0 true [] >>= fun sub =>
          .ok (followed offset pos first text sub))
  | label (hz : m (offset + pos) ≠ 0) (hb : ¬ isPointer (m (offset + pos)))
      (hl : offset + (m (offset + pos)).toNat + 1 ≤ length)
      (hnext : Place.next m length ⟨offset, pos⟩ =
        some ⟨offset, (pos + (m (offset + pos)).toNat + 1) % 65536⟩)
      (text' : Bytes) (hne : text' ≠ [])
      (hloop : wordsLoop octet length (n + 1) offset pos first text =
        wordsLoop octet length n offset ((pos + (m (offset + pos)).toNat + 1) % 65536) false text')

/-- The octets of a place can be read. -/
structure Readable (octet : Octets) (m : ℕ → UInt8) (length : ℕ) (p : Place) : Prop where
  head : octet p.index = .ok (m p.index)
  second : isPointer (m p.index) → octet (p.index + 1) = .ok (m (p.index + 1))
  label : ¬ isPointer (m p.index) → p.offset + (m p.index).toNat + 1 ≤ length →
    readBytes octet (p.index + 1) (m p.index).toNat =
      .ok ((List.range (m p.index).toNat).map fun i => m (p.index + 1 + i))

theorem Readable.round {octet : Octets} {offset pos : ℕ}
    (h : Readable octet m length ⟨offset, pos⟩) (n : ℕ) (first : Bool) (text : Bytes) :
    Round octet m length n offset pos first text := by
  have hhead : octet (offset + pos) = .ok (m (offset + pos)) := h.head
  by_cases hz : m (offset + pos) = 0
  · apply Round.terminator hz
    · simp [Place.next, Place.index, hz]
    · rw [hz] at hhead
      exact wordsLoop_terminator hhead
  by_cases hb : isPointer (m (offset + pos))
  · have hsecond : octet (offset + pos + 1) = .ok (m (offset + pos + 1)) := h.second hb
    by_cases ht : length < targetAt m (offset + pos)
    · apply Round.refused
      · intro e he
        cases he with
        | terminator hz' => exact hz hz'
        | pointer _ _ ht' => omega
        | label _ hb' => exact hb' hb
      · simp [Place.next, Place.index, hz, hb, ht]
      · exact wordsLoop_pointer_refused hhead hb hsecond ht
    · exact .pointer hb (not_lt.mp ht) (by simp [Place.next, Place.index, hz, hb, ht])
        (wordsLoop_pointer hhead hb hsecond (not_lt.mp ht))
  · by_cases hl : length < offset + (m (offset + pos)).toNat + 1
    · apply Round.refused
      · intro e he
        cases he with
        | terminator hz' => exact hz hz'
        | pointer _ hb' => exact hb hb'
        | label _ _ hl' => omega
      · simp [Place.next, Place.index, hz, hb, hl]
      · exact wordsLoop_label_refused hhead hb hz hl
    · have hbytes := h.label hb (not_lt.mp hl)
      have hpos : 0 < (m (offset + pos)).toNat :=
        Nat.pos_of_ne_zero fun h0 => hz (UInt8.toNat.inj h0)
      refine .label hz hb (not_lt.mp hl) (by simp [Place.next, Place.index, hz, hb, hl])
        (dotted first text ++ (List.range (m (offset + pos)).toNat).map fun i =>
          m (offset + pos + 1 + i)) ?_ ?_
      · intro hnil
        have := congrArg List.length hnil
        simp at this
        omega
      · have hbytes' : readBytes octet (offset + pos + 1) (m (offset + pos)).toNat = _ := hbytes
        rw [wordsLoop_label hhead hb hz (not_lt.mp hl), hbytes', ok_bind]
        rfl

theorem readable_memory (p : Place) : Readable (memory m) m length p where
  head := rfl
  second _ := rfl
  label _ _ := readBytes_memory _ _

theorem Contained.readable {p : Place} (h : Contained m length p) :
    Readable (within m length) m length p where
  head := within_of_lt h.1
  second hb := within_of_lt (h.2.1 hb)
  label hb hl := readBytes_within (by have := h.2.2 hb hl; omega)

theorem wordsLoop_of_not_contained {offset pos : ℕ} (h : ¬ Contained m length ⟨offset, pos⟩)
    (n : ℕ) (first : Bool) (text : Bytes) :
    wordsLoop (within m length) length (n + 1) offset pos first text = .error .overread := by
  by_cases hhead : offset + pos < length
  · by_cases hb : isPointer (m (offset + pos))
    · have hsecond : ¬ offset + pos + 1 < length := fun hlt =>
        h ⟨hhead, fun _ => hlt, fun hb' => absurd hb hb'⟩
      exact wordsLoop_pointer_overread (within_of_lt hhead) hb (within_of_le (not_lt.mp hsecond))
    · have hlabel : offset + (m (offset + pos)).toNat + 1 ≤ length ∧
          length ≤ offset + pos + (m (offset + pos)).toNat := by
        by_contra hnot
        refine h ⟨hhead, fun hb' => absurd hb' hb, ?_⟩
        intro _ hl
        change offset + (m (offset + pos)).toNat + 1 ≤ length at hl
        change offset + pos + (m (offset + pos)).toNat < length
        omega
      have hz : m (offset + pos) ≠ 0 := by
        intro hz
        rw [hz] at hlabel
        have hlen : length ≤ offset + pos := hlabel.2
        omega
      have hpos : 0 < (m (offset + pos)).toNat :=
        Nat.pos_of_ne_zero fun h0 => hz (UInt8.toNat.inj h0)
      rw [wordsLoop_label (within_of_lt hhead) hb hz hlabel.1,
        readBytes_within_beyond hpos (by omega), error_bind]
  · exact wordsLoop_overread (within_of_le (not_lt.mp hhead))

end DnsPackage

end Sese
