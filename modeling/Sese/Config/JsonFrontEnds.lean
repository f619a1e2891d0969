import Sese.Config.JsonDocument
import Sese.Config.JsonStreamify
import Sese.Config.SimdConversion

/-!
# Two front ends

`parse` keeps the escapes of the strings and keys as they are in the text, `simdParse` gets them
unescaped. The documents are those of the grammar whose numbers are integers of 64 bits and whose
escaped surrogates come in pairs.
-/
namespace Sese.Json

open Foundation

/-- A character of a string, as it is written. -/
inductive StrChar
  | plain (b : UInt8)
  | short (b : UInt8)
  /-- `\u` and the four digits of a code point. -/
  | unit (a b c d : UInt8)
  | pair (a b c d a' b' c' d' : UInt8)

def hexDigit (b : UInt8) : ℕ :=
  if b.toNat ≤ 57 then b.toNat - 48 else if b.toNat ≤ 70 then b.toNat - 55 else b.toNat - 87

def hexValue (a b c d : UInt8) : ℕ :=
  4096 * hexDigit a + 256 * hexDigit b + 16 * hexDigit c + hexDigit d

/-- The octets of a code point. -/
def utf8 (n : ℕ) : Bytes :=
  if n < 128 then [.ofNat n]
  else if n < 2048 then [.ofNat (192 + n / 64), .ofNat (128 + n % 64)]
  else if n < 65536 then
    [.ofNat (224 + n / 4096), .ofNat (128 + n / 64 % 64), .ofNat (128 + n % 64)]
  else
    [.ofNat (240 + n / 262144), .ofNat (128 + n / 4096 % 64), .ofNat (128 + n / 64 % 64),
      .ofNat (128 + n % 64)]

/-- The letters and signs behind a backslash, and what they stand for. -/
def shortEscape (b : UInt8) : UInt8 :=
  if b = 98 then 8 else if b = 102 then 12 else if b = 110 then 10 else if b = 114 then 13
  else if b = 116 then 9 else b

namespace StrChar

def Valid : StrChar → Prop
  | .plain b => 32 ≤ b.toNat ∧ b ≠ 34 ∧ b ≠ 92
  | .short b => b ∈ [34, 92, 47, 98, 102, 110, 114, 116]
  | .unit a b c d => (isHex a ∧ isHex b ∧ isHex c ∧ isHex d) ∧
    (hexValue a b c d < 0xD800 ∨ 0xE000 ≤ hexValue a b c d)
  | .pair a b c d a' b' c' d' => (isHex a ∧ isHex b ∧ isHex c ∧ isHex d) ∧
    (isHex a' ∧ isHex b' ∧ isHex c' ∧ isHex d') ∧
    (0xD800 ≤ hexValue a b c d ∧ hexValue a b c d < 0xDC00) ∧
    0xDC00 ≤ hexValue a' b' c' d' ∧ hexValue a' b' c' d' < 0xE000

instance (c : StrChar) : Decidable c.Valid :=
  match c with
  | .plain _ => inferInstanceAs (Decidable (_ ∧ _))
  | .short _ => inferInstanceAs (Decidable (_ ∈ _))
  | .unit _ _ _ _ => inferInstanceAs (Decidable (_ ∧ _))
  | .pair _ _ _ _ _ _ _ _ => inferInstanceAs (Decidable (_ ∧ _))

/-- The octets in the text. -/
def raw : StrChar → Bytes
  | .plain b => [b]
  | .short b => [92, b]
  | .unit a b c d => [92, 117, a, b, c, d]
  | .pair a b c d a' b' c' d' => [92, 117, a, b, c, d, 92, 117, a', b', c', d']

/-- The octets that it stands for. -/
def decoded : StrChar → Bytes
  | .plain b => [b]
  | .short b => [shortEscape b]
  | .unit a b c d => utf8 (hexValue a b c d)
  | .pair a b c d a' b' c' d' =>
    utf8 (0x10000 + 0x400 * (hexValue a b c d - 0xD800) + (hexValue a' b' c' d' - 0xDC00))

def isPlain : StrChar → Bool
  | .plain _ => true
  | _ => false

end StrChar

def rawText (chars : List StrChar) : Bytes := chars.flatMap StrChar.raw

def decodedText (chars : List StrChar) : Bytes := chars.flatMap StrChar.decoded

def NoEscape (chars : List StrChar) : Prop := ∀ c ∈ chars, c.isPlain

theorem length_utf8 (n : ℕ) : (utf8 n).length ≤ 4 := by
  unfold utf8
  split_ifs <;> simp

theorem StrChar.length_decoded (c : StrChar) : c.decoded.length ≤ c.raw.length := by
  cases c with
  | plain b => exact le_rfl
  | short b => simp [decoded, raw]
  | unit a b c d => exact (length_utf8 _).trans (by simp [raw])
  | pair a b c d a' b' c' d' => exact (length_utf8 _).trans (by simp [raw])

theorem StrChar.length_decoded_lt {c : StrChar} (h : c.isPlain = false) :
    c.decoded.length < c.raw.length := by
  cases c with
  | plain b => cases h
  | short b => simp [decoded, raw]
  | unit a b c d => exact (length_utf8 _).trans_lt (by simp [raw])
  | pair a b c d a' b' c' d' => exact (length_utf8 _).trans_lt (by simp [raw])

theorem length_decodedText (chars : List StrChar) :
    (decodedText chars).length ≤ (rawText chars).length := by
  induction chars with
  | nil => exact le_rfl
  | cons c chars ih =>
    have hc := c.length_decoded
    simp only [decodedText, rawText, List.flatMap_cons, List.length_append] at ih ⊢
    omega

theorem length_decodedText_lt {chars : List StrChar} (h : ¬ NoEscape chars) :
    (decodedText chars).length < (rawText chars).length := by
  induction chars with
  | nil => exact absurd (fun c hc => absurd hc List.not_mem_nil) h
  | cons c chars ih =>
    have hchars := length_decodedText chars
    by_cases hplain : c.isPlain
    · have hrest : ¬ NoEscape chars := by
        intro hrest
        apply h
        intro a ha
        rcases List.mem_cons.mp ha with rfl | ha
        · exact hplain
        · exact hrest a ha
      have hlt := ih hrest
      have hc := c.length_decoded
      simp only [decodedText, rawText, List.flatMap_cons, List.length_append] at hlt ⊢
      omega
    · have hlt := StrChar.length_decoded_lt (by simpa using hplain : c.isPlain = false)
      simp only [decodedText, rawText, List.flatMap_cons, List.length_append] at hchars ⊢
      omega

theorem NoEscape.decodedText_eq {chars : List StrChar} (h : NoEscape chars) :
    decodedText chars = rawText chars := by
  induction chars with
  | nil => rfl
  | cons c chars ih =>
    have hc : c.decoded = c.raw := by
      have hplain := h c List.mem_cons_self
      cases c with
      | plain b => rfl
      | _ => cases hplain
    have hrest := ih fun a ha => h a (List.mem_cons_of_mem _ ha)
    simp only [decodedText, rawText, List.flatMap_cons] at hrest ⊢
    rw [hc, hrest]

theorem decodedText_eq_iff (chars : List StrChar) :
    rawText chars = decodedText chars ↔ NoEscape chars := by
  constructor
  · intro heq
    by_contra hescape
    have hlt := length_decodedText_lt hescape
    rw [heq] at hlt
    exact hlt.false
  · exact fun h => h.decodedText_eq.symm

theorem backslash_mem_rawText {chars : List StrChar} (h : ∀ c ∈ chars, c.Valid) :
    (92 : UInt8) ∈ rawText chars ↔ ¬ NoEscape chars := by
  constructor
  · intro hmem hplain
    obtain ⟨c, hc, hb⟩ := List.mem_flatMap.mp hmem
    have hvalid := h c hc
    have hcplain := hplain c hc
    cases c with
    | plain b => exact hvalid.2.2 (List.mem_singleton.mp hb).symm
    | _ => cases hcplain
  · intro hescape
    rw [NoEscape, not_forall] at hescape
    obtain ⟨c, hc⟩ := hescape
    obtain ⟨hmem, hescape⟩ := Classical.not_imp.mp hc
    refine List.mem_flatMap.mpr ⟨c, hmem, ?_⟩
    cases c with
    | plain b => exact absurd rfl hescape
    | _ => exact List.mem_cons_self

theorem StrChar.raw_append_inj {c c' : StrChar} (h : c.Valid) (h' : c'.Valid) {rest rest' : Bytes}
    (heq : c.raw ++ rest = c'.raw ++ rest') : c = c' ∧ rest = rest' := by
  cases c with
  | plain b =>
    cases c' with
    | plain b' => simpa [raw] using heq
    | _ => exact absurd (List.cons_eq_cons.mp heq).1 h.2.2
  | short b =>
    cases c' with
    | plain b' => exact absurd (List.cons_eq_cons.mp heq).1.symm h'.2.2
    | short b' => simpa [raw] using heq
    | _ =>
      have hb : b = 117 := by
        simp only [raw, List.cons_append, List.cons.injEq] at heq
        exact heq.2.1
      rw [hb] at h
      exact absurd h (by simp [Valid])
  | unit a b c d =>
    cases c' with
    | plain b' => exact absurd (List.cons_eq_cons.mp heq).1.symm h'.2.2
    | short b' =>
      have hb : b' = 117 := by
        simp only [raw, List.cons_append, List.cons.injEq] at heq
        exact heq.2.1.symm
      rw [hb] at h'
      exact absurd h' (by simp [Valid])
    | unit a' b' c' d' => simpa [raw, and_assoc] using heq
    | pair a' b' c' d' =>
      -- the first code point of a pair is a surrogate
      simp only [raw, List.cons_append, List.cons.injEq] at heq
      obtain ⟨-, -, rfl, rfl, rfl, rfl, -⟩ := heq
      have hsurrogate := h.2
      obtain ⟨-, -, hhigh, -⟩ := h'
      omega
  | pair a b c d e f g k =>
    cases c' with
    | plain b' => exact absurd (List.cons_eq_cons.mp heq).1.symm h'.2.2
    | short b' =>
      have hb : b' = 117 := by
        simp only [raw, List.cons_append, List.cons.injEq] at heq
        exact heq.2.1.symm
      rw [hb] at h'
      exact absurd h' (by simp [Valid])
    | unit a' b' c' d' =>
      simp only [raw, List.cons_append, List.cons.injEq] at heq
      obtain ⟨-, -, rfl, rfl, rfl, rfl, -⟩ := heq
      have hsurrogate := h'.2
      obtain ⟨-, -, hhigh, -⟩ := h
      omega
    | pair a' b' c' d' => simpa [raw, and_assoc] using heq

/-- The text of a string has only one reading. -/
theorem rawText_injective {chars chars' : List StrChar} (h : ∀ c ∈ chars, c.Valid)
    (h' : ∀ c ∈ chars', c.Valid) (heq : rawText chars = rawText chars') : chars = chars' := by
  have hne (c : StrChar) (rest : Bytes) : c.raw ++ rest ≠ [] := by
    cases c <;> exact List.cons_ne_nil _ _
  induction chars generalizing chars' with
  | nil =>
    cases chars' with
    | nil => rfl
    | cons c' chars' => exact absurd heq.symm (hne c' (rawText chars'))
  | cons c chars ih =>
    cases chars' with
    | nil => exact absurd heq (hne c (rawText chars))
    | cons c' chars' =>
      obtain ⟨rfl, hrest⟩ := StrChar.raw_append_inj (h c List.mem_cons_self)
        (h' c' List.mem_cons_self) heq
      rw [ih (fun a ha => h a (List.mem_cons_of_mem _ ha))
        (fun a ha => h' a (List.mem_cons_of_mem _ ha)) hrest]

/-- A document with the characters of its strings. -/
inductive Source
  | null
  | bool (b : Bool)
  | int (negative : Bool) (digits : Bytes)
  | string (chars : List StrChar)
  | array (elements : List Source)
  | object (members : List (List StrChar × Source))

def signOf (negative : Bool) : Bytes := if negative then [45] else []

mutual

/-- The document in the text. -/
def Source.doc : Source → Doc
  | .null => .null
  | .bool b => .bool b
  | .int negative digits => .number (signOf negative ++ digits)
  | .string chars => .string (rawText chars)
  | .array elements => .array (elementDocs elements)
  | .object members => .object (memberDocs members)

def elementDocs : List Source → List Doc
  | [] => []
  | source :: elements => source.doc :: elementDocs elements

def memberDocs : List (List StrChar × Source) → List (Bytes × Doc)
  | [] => []
  | (chars, source) :: members => (rawText chars, source.doc) :: memberDocs members

end

mutual

/-- The element of the library for the document. -/
def Source.dom {δ : Type} : Source → Element δ
  | .null => .null_value
  | .bool b => .bool b
  | .int negative digits => .int64 (signedValue (signOf negative) digits)
  | .string chars => .string (decodedText chars)
  | .array elements => .array (elementDoms elements)
  | .object members => .object (memberDoms members)

def elementDoms {δ : Type} : List Source → List (Element δ)
  | [] => []
  | source :: elements => source.dom :: elementDoms elements

def memberDoms {δ : Type} : List (List StrChar × Source) → List (Bytes × Element δ)
  | [] => []
  | (chars, source) :: members => (decodedText chars, source.dom) :: memberDoms members

end

def Source.isContainer : Source → Bool
  | .array _ => true
  | .object _ => true
  | _ => false

/-- The document is one of the grammar, with integers of 64 bits. -/
inductive Source.Valid : Source → Prop
  | null : Valid .null
  | bool (b : Bool) : Valid (.bool b)
  | int {negative : Bool} {digits : Bytes} : Digits digits → (digits.head? = some 48 → digits = [48]) →
    -2 ^ 63 ≤ signedValue (signOf negative) digits → signedValue (signOf negative) digits < 2 ^ 63 →
    Valid (.int negative digits)
  | string {chars : List StrChar} : (∀ c ∈ chars, c.Valid) → Valid (.string chars)
  | array {elements : List Source} : (∀ s ∈ elements, Valid s) → Valid (.array elements)
  | object {members : List (List StrChar × Source)} : (∀ m ∈ members, ∀ c ∈ m.1, c.Valid) →
    (∀ m ∈ members, Valid m.2) → Valid (.object members)

theorem escaped_rawText {chars : List StrChar} (h : ∀ c ∈ chars, c.Valid) : Escaped (rawText chars) := by
  have hhex {b : UInt8} (hb : isHex b) : b ≠ 34 ∧ b ≠ 92 := by
    constructor <;>
    · rintro rfl
      exact absurd hb (by decide)
  have hunit {a b c d : UInt8} (h : isHex a ∧ isHex b ∧ isHex c ∧ isHex d) {rest : Bytes}
      (hrest : Escaped rest) : Escaped (92 :: 117 :: a :: b :: c :: d :: rest) := by
    obtain ⟨ha, hb, hc, hd⟩ := h
    apply Escaped.pair
    apply Escaped.octet (hhex ha).1 (hhex ha).2
    apply Escaped.octet (hhex hb).1 (hhex hb).2
    apply Escaped.octet (hhex hc).1 (hhex hc).2
    exact .octet (hhex hd).1 (hhex hd).2 hrest
  induction chars with
  | nil => exact .nil
  | cons c chars ih =>
    have hc := h c List.mem_cons_self
    have hrest := ih fun a ha => h a (List.mem_cons_of_mem _ ha)
    cases c with
    | plain b => exact .octet hc.2.1 hc.2.2 hrest
    | short b => exact .pair b hrest
    | unit a b c d => exact hunit hc.1 hrest
    | pair a b c d a' b' c' d' => exact hunit hc.1 (hunit hc.2.1 hrest)

theorem signed_int {negative : Bool} {digits : Bytes} (h : Digits digits) :
    Signed (signOf negative ++ digits) := by
  refine ⟨List.append_ne_nil_of_right_ne_nil _ h.1, fun b hb => ?_⟩
  rcases List.mem_append.mp hb with hb | hb
  · cases negative with
    | false => cases hb
    | true => exact .inl (List.mem_singleton.mp hb)
  · exact .inr (h.2 b hb)

theorem Source.Valid.writable {source : Source} (h : source.Valid) : source.doc.Writable := by
  induction h with
  | null => trivial
  | bool b => trivial
  | int hdigits _ _ _ => exact (signed_int hdigits).word
  | string hchars => exact escaped_rawText hchars
  | @array elements hvalid ih =>
    clear hvalid
    induction elements with
    | nil => trivial
    | cons source elements ihElements =>
      exact ⟨ih source List.mem_cons_self, ihElements fun s hs => ih s (List.mem_cons_of_mem _ hs)⟩
  | @object members hchars hvalid ih =>
    clear hvalid
    induction members with
    | nil => trivial
    | cons m members ihMembers =>
      have hkey := escaped_rawText (hchars m List.mem_cons_self)
      exact ⟨hkey, ih m List.mem_cons_self, ihMembers
        (fun a ha => hchars a (List.mem_cons_of_mem _ ha)) fun a ha => ih a (List.mem_cons_of_mem _ ha)⟩

mutual

/-- There is no escape in a key, nor in a string that is not replaced by a later member. -/
def Source.Live : Source → Prop
  | .string chars => NoEscape chars
  | .array elements => ElementsLive elements
  | .object members => MembersLive members
  | _ => True

def ElementsLive : List Source → Prop
  | [] => True
  | source :: elements => source.Live ∧ ElementsLive elements

def MembersLive : List (List StrChar × Source) → Prop
  | [] => True
  | (chars, source) :: members =>
    NoEscape chars ∧ ((∀ m ∈ members, decodedText m.1 ≠ decodedText chars) → source.Live) ∧
      MembersLive members

end

variable {δ : Type}

def setAll (acc : List (Bytes × Value δ)) (l : List (Bytes × Value δ)) : List (Bytes × Value δ) :=
  l.foldl (fun acc e => Value.set acc e.1 e.2) acc

theorem find_setAll_of_forall_ne {acc l : List (Bytes × Value δ)} {key : Bytes}
    (h : ∀ e ∈ l, e.1 ≠ key) : Value.find (setAll acc l) key = Value.find acc key := by
  induction l generalizing acc with
  | nil => rfl
  | cons e l ih =>
    have hrest := @ih (Value.set acc e.1 e.2) fun a ha => h a (List.mem_cons_of_mem _ ha)
    exact hrest.trans (Value.find_set_of_ne acc e.2 (h e List.mem_cons_self).symm)

theorem isSome_find_setAll {acc l : List (Bytes × Value δ)} {key : Bytes}
    (h : (Value.find acc key).isSome ∨ ∃ e ∈ l, e.1 = key) :
    (Value.find (setAll acc l) key).isSome := by
  induction l generalizing acc with
  | nil =>
    rcases h with h | ⟨e, he, -⟩
    · exact h
    · cases he
  | cons e l ih =>
    apply ih
    by_cases heq : key = e.1
    · rw [heq, Value.find_set_self]
      exact .inl rfl
    · rw [Value.find_set_of_ne acc e.2 heq]
      refine h.imp_right ?_
      rintro ⟨a, ha, rfl⟩
      rcases List.mem_cons.mp ha with rfl | ha
      · exact absurd rfl heq
      · exact ⟨a, ha, rfl⟩

variable {ι : Type}

/-- Two functions are the same on the last element of every key. -/
def LastEqual (key : ι → Bytes) (f g : ι → Value δ) : List ι → Prop
  | [] => True
  | i :: l => ((∀ j ∈ l, key j ≠ key i) → f i = g i) ∧ LastEqual key f g l

theorem setAll_eq_of_lastEqual {key : ι → Bytes} {f g : ι → Value δ} {l : List ι}
    (h : LastEqual key f g l) {acc acc' : List (Bytes × Value δ)} (hacc : Value.Sorted acc)
    (hacc' : Value.Sorted acc')
    (hfind : ∀ k, (∀ i ∈ l, key i ≠ k) → Value.find acc k = Value.find acc' k) :
    setAll acc (l.map fun i => (key i, f i)) = setAll acc' (l.map fun i => (key i, g i)) := by
  induction l generalizing acc acc' with
  | nil => exact hacc.ext hacc' fun k => hfind k fun i hi => absurd hi List.not_mem_nil
  | cons i l ih =>
    refine ih h.2 (hacc.set _ _) (hacc'.set _ _) fun k hk => ?_
    by_cases heq : k = key i
    · subst heq
      rw [Value.find_set_self, Value.find_set_self]
      exact congrArg some (h.1 hk)
    · rw [Value.find_set_of_ne _ _ heq, Value.find_set_of_ne _ _ heq]
      apply hfind
      intro j hj
      rcases List.mem_cons.mp hj with rfl | hj
      · exact Ne.symm heq
      · exact hk j hj

theorem lastEqual_of_setAll_eq {key : ι → Bytes} {f g : ι → Value δ} {l : List ι}
    {acc acc' : List (Bytes × Value δ)}
    (h : setAll acc (l.map fun i => (key i, f i)) = setAll acc' (l.map fun i => (key i, g i))) :
    LastEqual key f g l := by
  induction l generalizing acc acc' with
  | nil => trivial
  | cons i l ih =>
    refine ⟨fun hlast => ?_, ih h⟩
    have hvalue (f : ι → Value δ) (acc : List (Bytes × Value δ)) :
        Value.find (setAll (Value.set acc (key i) (f i)) (l.map fun i => (key i, f i))) (key i) =
          some (f i) := by
      rw [find_setAll_of_forall_ne, Value.find_set_self]
      intro e he
      obtain ⟨j, hj, rfl⟩ := List.mem_map.mp he
      exact hlast j hj
    have hf := hvalue f acc
    have hg := hvalue g acc'
    have hsame : setAll (Value.set acc (key i) (f i)) (l.map fun i => (key i, f i)) =
        setAll (Value.set acc' (key i) (g i)) (l.map fun i => (key i, g i)) := h
    rw [hsame, hg] at hf
    exact (Option.some.inj hf).symm

theorem setAll_eq_iff (key : ι → Bytes) (f g : ι → Value δ) (l : List ι) :
    setAll [] (l.map fun i => (key i, f i)) = setAll [] (l.map fun i => (key i, g i)) ↔
      LastEqual key f g l :=
  ⟨lastEqual_of_setAll_eq, fun h => setAll_eq_of_lastEqual h .nil .nil fun _ _ => rfl⟩

theorem memberChildValues_doms (acc : List (Bytes × Value δ))
    (members : List (List StrChar × Source)) :
    memberChildValues acc (memberDoms members) =
      setAll acc (members.map fun m => (decodedText m.1, m.2.dom.value)) := by
  induction members generalizing acc with
  | nil => rfl
  | cons m members ih =>
    rw [memberDoms, memberChildValues, ih]
    rfl

/-- The keys are the same only when no key has an escape: a key with an escape would be unescaped
from a longer one. -/
theorem noEscape_of_keys {members : List (List StrChar × Source)}
    (hvalid : ∀ m ∈ members, ∀ c ∈ m.1, c.Valid)
    (h : ∀ m ∈ members, ∃ m' ∈ members, decodedText m'.1 = rawText m.1) :
    ∀ m ∈ members, NoEscape m.1 := by
  obtain ⟨bound, hbound⟩ : ∃ n, ∀ m ∈ members, (rawText m.1).length ≤ n := by
    refine ⟨(members.map fun m => (rawText m.1).length).sum, fun m hm => ?_⟩
    exact List.single_le_sum (fun _ _ => Nat.zero_le _) _ (List.mem_map.mpr ⟨m, hm, rfl⟩)
  have hlonger (m : List StrChar × Source) (hm : m ∈ members) (hescape : ¬ NoEscape m.1) :
      ∃ m' ∈ members, ¬ NoEscape m'.1 ∧ (rawText m.1).length < (rawText m'.1).length := by
    obtain ⟨m', hm', heq⟩ := h m hm
    have hescape' : ¬ NoEscape m'.1 := by
      intro hplain
      have hslash := (backslash_mem_rawText (hvalid m hm)).mpr hescape
      rw [← heq, hplain.decodedText_eq] at hslash
      exact (backslash_mem_rawText (hvalid m' hm')).mp hslash hplain
    refine ⟨m', hm', hescape', ?_⟩
    rw [← heq]
    exact length_decodedText_lt hescape'
  intro m hm
  by_contra hescape
  have hclimb (n : ℕ) : ∃ m ∈ members, ¬ NoEscape m.1 ∧ n ≤ (rawText m.1).length := by
    induction n with
    | zero => exact ⟨m, hm, hescape, Nat.zero_le _⟩
    | succ n ih =>
      obtain ⟨a, ha, hescape, hle⟩ := ih
      obtain ⟨b, hb, hescape', hlt⟩ := hlonger a ha hescape
      exact ⟨b, hb, hescape', by omega⟩
  obtain ⟨a, ha, -, hle⟩ := hclimb (bound + 1)
  have hbounded := hbound a ha
  omega

theorem MembersLive.keys {members : List (List StrChar × Source)} (h : MembersLive members) :
    ∀ m ∈ members, NoEscape m.1 := by
  induction members with
  | nil => exact fun m hm => absurd hm List.not_mem_nil
  | cons a members ih =>
    obtain ⟨hchars, -, hrest⟩ := h
    intro m hm
    rcases List.mem_cons.mp hm with rfl | hm
    · exact hchars
    · exact ih hrest m hm

theorem membersLive_iff {members : List (List StrChar × Source)}
    (hkeys : ∀ m ∈ members, NoEscape m.1) {f g : List StrChar × Source → Value δ}
    (hvalues : ∀ m ∈ members, f m = g m ↔ m.2.Live) :
    MembersLive members ↔ LastEqual (fun m => rawText m.1) f g members := by
  induction members with
  | nil => exact Iff.rfl
  | cons m members ih =>
    obtain ⟨chars, source⟩ := m
    have hchars := hkeys _ List.mem_cons_self
    have hrest := ih (fun a ha => hkeys a (List.mem_cons_of_mem _ ha))
      fun a ha => hvalues a (List.mem_cons_of_mem _ ha)
    have hlast : (∀ a ∈ members, decodedText a.1 ≠ decodedText chars) ↔
        ∀ a ∈ members, rawText a.1 ≠ rawText chars := by
      refine forall_congr' fun a => imp_congr_right fun ha => ?_
      rw [(hkeys a (List.mem_cons_of_mem _ ha)).decodedText_eq, NoEscape.decodedText_eq hchars]
    rw [MembersLive, LastEqual, hrest, hlast, hvalues _ List.mem_cons_self]
    exact and_iff_right hchars

theorem isContainer_dom (source : Source) : (source.dom : Element δ).isContainer = source.isContainer := by
  cases source <;> rfl

theorem memberDoms_eq (members : List (List StrChar × Source)) :
    (memberDoms members : List (Bytes × Element δ)) =
      members.map fun m => (decodedText m.1, m.2.dom) := by
  induction members with
  | nil => rfl
  | cons m members ih =>
    rw [memberDoms, ih]
    rfl

variable [Double δ]

theorem memberValues_docs (acc : List (Bytes × Value δ)) (members : List (List StrChar × Source)) :
    memberValues acc (memberDocs members) =
      setAll acc (members.map fun m => (rawText m.1, m.2.doc.value)) := by
  induction members generalizing acc with
  | nil => rfl
  | cons m members ih =>
    rw [memberDocs, memberValues, ih]
    rfl

theorem parseBasic_int {negative : Bool} {digits : Bytes} (h : Digits digits)
    (hrange : -2 ^ 63 ≤ signedValue (signOf negative) digits ∧
      signedValue (signOf negative) digits < 2 ^ 63) :
    parseBasic (signOf negative ++ digits) =
      (.ok (.int (signedValue (signOf negative) digits)) : Except Fault (Value δ)) := by
  have hsign : signOf negative = [] ∨ signOf negative = [43] ∨ signOf negative = [45] := by
    cases negative with
    | false => exact .inl rfl
    | true => exact .inr (.inr rfl)
  have hzero : (0 : UInt8) ∉ digits := fun hmem => absurd (h.2 0 hmem) (by decide)
  exact parseBasic_signed (signed_int h) (stoll_numeral ⟨hsign, h.1, h.2, by simp⟩ hzero hrange)

theorem elements_eq_iff {elements : List Source}
    (h : ∀ s ∈ elements, (s.doc.value : Value δ) = s.dom.value ↔ s.Live) :
    (elementValues (elementDocs elements) : List (Value δ)) = childValues (elementDoms elements) ↔
      ElementsLive elements := by
  induction elements with
  | nil => exact iff_of_true rfl trivial
  | cons source elements ih =>
    rw [elementDocs, elementValues, elementDoms, childValues, List.cons_eq_cons, ElementsLive,
      h source List.mem_cons_self, ih fun s hs => h s (List.mem_cons_of_mem _ hs)]

/-- The two values of a document are the same exactly when no escape is left in them. -/
theorem value_eq_iff {source : Source} (h : source.Valid) :
    (source.doc.value : Value δ) = source.dom.value ↔ source.Live := by
  induction h with
  | null => exact iff_of_true rfl trivial
  | bool b => exact iff_of_true rfl trivial
  | int hdigits _ hlower hupper =>
    refine iff_of_true ?_ trivial
    rw [Source.doc, Doc.value, parseBasic_int hdigits ⟨hlower, hupper⟩]
    rfl
  | @string chars _ =>
    rw [Source.doc, Doc.value, Source.dom, Element.value, Value.string.injEq]
    exact decodedText_eq_iff chars
  | @array elements _ ih =>
    rw [Source.doc, Doc.value, Source.dom, Element.value, Value.list.injEq]
    exact elements_eq_iff ih
  | @object members hchars _ ih =>
    rw [Source.doc, Doc.value, Source.dom, Element.value, Value.dict.injEq, Source.Live,
      memberValues_docs, memberChildValues_doms]
    have hiff (hkeys : ∀ m ∈ members, NoEscape m.1) :
        setAll [] (members.map fun m => (rawText m.1, (m.2.doc.value : Value δ))) =
          setAll [] (members.map fun m => (decodedText m.1, m.2.dom.value)) ↔ MembersLive members := by
      have hmap : (members.map fun m => (decodedText m.1, (m.2.dom.value : Value δ))) =
          members.map fun m => (rawText m.1, m.2.dom.value) :=
        List.map_congr_left fun m hm => by rw [(hkeys m hm).decodedText_eq]
      rw [hmap, membersLive_iff hkeys ih]
      exact setAll_eq_iff (fun m => rawText m.1) _ _ members
    constructor
    · intro heq
      refine (hiff (noEscape_of_keys hchars fun m hm => ?_)).mp heq
      have hfound : (Value.find (setAll [] (members.map fun m =>
          (rawText m.1, (m.2.doc.value : Value δ)))) (rawText m.1)).isSome :=
        isSome_find_setAll (.inr ⟨_, List.mem_map.mpr ⟨m, hm, rfl⟩, rfl⟩)
      by_contra hnone
      rw [heq, find_setAll_of_forall_ne] at hfound
      · cases hfound
      · intro e he hkey
        obtain ⟨m', hm', rfl⟩ := List.mem_map.mp he
        exact hnone ⟨m', hm', hkey⟩
    · intro hlive
      exact (hiff hlive.keys).mpr hlive

theorem isContainer_doc (source : Source) : source.doc.isContainer = source.isContainer := by
  cases source <;> rfl

theorem membersReadable {members : List (List StrChar × Source)} {seen : List Bytes}
    (hchars : ∀ m ∈ members, ∀ c ∈ m.1, c.Valid)
    (hunrepeated : MembersUnrepeated (memberDoms members : List (Bytes × Element δ)))
    (hvalues : ∀ m ∈ members, (m.2.dom : Element δ).Unrepeated → m.2.doc.Readable δ)
    (hseen : ∀ m ∈ members, m.2.isContainer → rawText m.1 ∉ seen) :
    MembersReadable δ seen (memberDocs members) := by
  induction members generalizing seen with
  | nil => trivial
  | cons m members ih =>
    obtain ⟨chars, source⟩ := m
    obtain ⟨hsource, hkeys, hrest⟩ := hunrepeated
    refine ⟨hvalues _ List.mem_cons_self hsource, ?_, ?_⟩
    · rw [isContainer_doc]
      exact hseen _ List.mem_cons_self
    · refine ih (fun a ha => hchars a (List.mem_cons_of_mem _ ha)) hrest
        (fun a ha => hvalues a (List.mem_cons_of_mem _ ha)) fun a ha hcontainer hmem => ?_
      rcases List.mem_cons.mp hmem with heq | hmem
      · have hsame := rawText_injective (hchars a (List.mem_cons_of_mem _ ha))
          (hchars _ List.mem_cons_self) heq
        have hdom : (decodedText a.1, (a.2.dom : Element δ)) ∈ memberDoms members := by
          rw [memberDoms_eq]
          exact List.mem_map.mpr ⟨a, ha, rfl⟩
        have hword := (hkeys _ hdom (congrArg decodedText hsame)).2
        rw [isContainer_dom, hcontainer] at hword
        cases hword
      · exact hseen a (List.mem_cons_of_mem _ ha) hcontainer hmem

theorem elementsReadable {elements : List Source}
    (h : ∀ s ∈ elements, (s.dom : Element δ).Unrepeated → s.doc.Readable δ)
    (hunrepeated : ChildrenUnrepeated (elementDoms elements : List (Element δ))) :
    ElementsReadable δ (elementDocs elements) := by
  induction elements with
  | nil => trivial
  | cons source elements ih =>
    exact ⟨h source List.mem_cons_self hunrepeated.1,
      ih (fun s hs => h s (List.mem_cons_of_mem _ hs)) hunrepeated.2⟩

theorem readable {source : Source} (h : source.Valid)
    (hunrepeated : (source.dom : Element δ).Unrepeated) : source.doc.Readable δ := by
  induction h with
  | null => trivial
  | bool b => trivial
  | int hdigits _ hlower hupper =>
    exact ⟨(signed_int hdigits).word, _, parseBasic_int hdigits ⟨hlower, hupper⟩⟩
  | string _ => trivial
  | array _ ih => exact elementsReadable ih hunrepeated
  | @object members hchars _ ih =>
    exact membersReadable hchars hunrepeated ih fun m hm _ => List.not_mem_nil

/-- For a document in which no container is the value of a repeated key, `parse` and `simdParse`
agree exactly when no key and no string that stays has an escape. -/
theorem frontEnds_agree_iff (dom : Bytes → Option (Element δ)) {source : Source}
    {before body behind : Bytes} (hvalid : source.Valid) (hcontainer : source.isContainer)
    (hbefore : Blank before) (hbody : Text source.doc body) (hbehind : Blank behind)
    (hdom : dom (before ++ (body ++ behind)) = some source.dom)
    (hunrepeated : (source.dom : Element δ).Unrepeated) :
    (∃ value : Value δ, parse (before ++ (body ++ behind)) = .ok value ∧
      simdParse dom (before ++ (body ++ behind)) = .ok value) ↔ source.Live := by
  have hparse := parse_text hbefore hbody hbehind ((isContainer_doc source).trans hcontainer)
    (readable hvalid hunrepeated)
  have hsimd : simdParse dom (before ++ (body ++ behind)) = .ok source.dom.value := by
    rw [simdParse, hdom]
    exact convert_eq ((isContainer_dom source).trans hcontainer) hunrepeated
  rw [hparse, hsimd, ← value_eq_iff (δ := δ) hvalid]
  constructor
  · rintro ⟨value, hdoc, hvalue⟩
    exact (Except.ok.inj hdoc).trans (Except.ok.inj hvalue).symm
  · exact fun heq => ⟨_, rfl, congrArg Except.ok heq.symm⟩

def sampleSource : Source :=
  .object [([.plain 97], .array [.int true [53], .string [.plain 120]]), ([.plain 98], .bool true)]

/-- A parser for the text of `sampleSource`. -/
def sampleDom (text : Bytes) : Option (Element Empty) :=
  if text = sampleSource.doc.write then some sampleSource.dom else none

theorem frontEnds_agree_sampleSource :
    (∃ value : Value Empty, parse sampleSource.doc.write = .ok value ∧
      simdParse sampleDom sampleSource.doc.write = .ok value) ↔ sampleSource.Live := by
  have hdigits : Digits [53] := ⟨by decide, by decide⟩
  have hvalid : sampleSource.Valid := by
    apply Source.Valid.object
    · simp only [List.mem_cons, List.not_mem_nil, or_false, forall_eq_or_imp, forall_eq]
      exact ⟨by decide, by decide⟩
    · simp only [List.mem_cons, List.not_mem_nil, or_false, forall_eq_or_imp, forall_eq]
      refine ⟨.array ?_, .bool true⟩
      simp only [List.mem_cons, List.not_mem_nil, or_false, forall_eq_or_imp, forall_eq]
      exact ⟨.int hdigits (by decide) (by decide) (by decide), .string (by decide)⟩
  have hunrepeated : (sampleSource.dom : Element Empty).Unrepeated := by
    refine ⟨⟨trivial, trivial, trivial⟩, ?_, trivial, ?_, trivial⟩
    · intro e he hkey
      rw [List.mem_singleton.mp he] at hkey
      exact absurd hkey (by decide)
    · intro e he
      cases he
  have hdom : sampleDom ([] ++ (sampleSource.doc.write ++ [])) = some sampleSource.dom := by
    rw [List.nil_append, List.append_nil]
    exact if_pos rfl
  have hiff := frontEnds_agree_iff sampleDom hvalid rfl blank_nil
    (text_write _ hvalid.writable) blank_nil hdom hunrepeated
  rw [List.nil_append, List.append_nil] at hiff
  exact hiff

def escapedSource : Source := .array [.string [.short 110]]

def escapedDom (text : Bytes) : Option (Element Empty) :=
  if text = escapedSource.doc.write then some escapedSource.dom else none

theorem frontEnds_disagree_escapedSource :
    escapedSource.Valid ∧ escapedDom escapedSource.doc.write = some escapedSource.dom ∧
      ¬ ∃ value : Value Empty, parse escapedSource.doc.write = .ok value ∧
        simdParse escapedDom escapedSource.doc.write = .ok value := by
  have hparse : parse escapedSource.doc.write =
      (.ok (.list [.string [92, 110]]) : Except Fault (Value Empty)) := by rfl
  have hsimd : simdParse escapedDom escapedSource.doc.write = .ok (.list [.string [10]]) := by rfl
  refine ⟨?_, if_pos rfl, ?_⟩
  · refine .array fun s hs => ?_
    rw [List.mem_singleton.mp hs]
    exact .string (by decide)
  · rintro ⟨value, hvalue, hvalue'⟩
    rw [hparse] at hvalue
    rw [hsimd] at hvalue'
    cases hvalue
    cases hvalue'

end Sese.Json
