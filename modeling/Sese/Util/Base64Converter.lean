import Sese.Io.InputBufferWrapper

/-!
# Base64

`Base64Converter::encode` and `Base64Converter::decode`, and the text that RFC 4648 makes of a
sequence of octets.
-/
namespace Sese.Base64Converter

open Foundation Io

def base64CodePage : Bytes :=
  bytes "ABCDEFGHIJKLMNOPQRSTUVWXYZabcdefghijklmnopqrstuvwxyz0123456789+/"

/-- The function `encode` of a sextet. -/
def encodeBits (bits : UInt8) : UInt8 := base64CodePage.getD bits.toNat 0

def bits1 (b0 : UInt8) : UInt8 := (b0 &&& 0b11111100) >>> 2

def bits2 (b0 b1 : UInt8) : UInt8 := (b0 &&& 0b00000011) <<< 4 ||| (b1 &&& 0b11110000) >>> 4

def bits3 (b1 b2 : UInt8) : UInt8 := (b1 &&& 0b00001111) <<< 2 ||| (b2 &&& 0b11000000) >>> 6

def bits4 (b2 : UInt8) : UInt8 := b2 &&& 0b00111111

/-- The first octets of `buffer` are read, and the others are what they were. -/
def fill (buffer got : Bytes) : Bytes := got ++ buffer.drop got.length

/-- The body of the loop of `encode`, for the contents of `buffer` and what was written. -/
def encodeBody (s : Bytes × Bytes) (got : Bytes) : Except Fault ((Bytes × Bytes) ⊕ Bytes) :=
  let len := got.length
  let buffer := fill s.1 got
  let buffer :=
    if len = 2 then buffer.set 2 0 else if len = 1 then (buffer.set 1 0).set 2 0 else buffer
  let b0 := buffer.getD 0 0
  let b1 := buffer.getD 1 0
  let b2 := buffer.getD 2 0
  let result := [encodeBits (bits1 b0), encodeBits (bits2 b0 b1)]
  let result :=
    if len ≥ 2 then
      let result := result ++ [encodeBits (bits3 b1 b2)]
      if len = 3 then result ++ [encodeBits (bits4 b2)] else result
    else result
  let out := s.2 ++ result
  let out := if len ≠ 3 then out ++ (bytes "==").take (if len = 1 then 2 else 1) else out
  .ok (.inl (buffer, out))

/-- `encode`: what is written to `dest`. -/
def encode {σ : Type} [InputStream σ] (src : σ) : Except Fault Bytes :=
  groupLoop 3 encodeBody Prod.snd (InputStream.left src + 1) ([0, 0, 0], []) src

/-- The sextet of a character. -/
def decodeChar (b : UInt8) : Option UInt8 :=
  if 65 ≤ b ∧ b ≤ 90 then some (b - 65)
  else if 97 ≤ b ∧ b ≤ 122 then some (b - 71)
  else if 48 ≤ b ∧ b ≤ 57 then some (b + 4)
  else if b = 43 ∨ b = 45 then some 62
  else if b = 47 ∨ b = 95 then some 63
  else none

def octet1 (v0 v1 : UInt8) : UInt8 := v0 <<< 2 ||| (v1 &&& 0b00110000) >>> 4

def octet2 (v1 v2 : UInt8) : UInt8 := (v1 &&& 0b00001111) <<< 4 ||| (v2 &&& 0b00111100) >>> 2

def octet3 (v2 v3 : UInt8) : UInt8 := (v2 &&& 0b00000011) <<< 6 ||| v3

/-- `dest->write(buffer, len)`; a negative length is a huge one. -/
def writeBuffer (buffer : Bytes) (len : ℤ) : Except Fault Bytes :=
  if 0 ≤ len ∧ len ≤ buffer.length then .ok (buffer.take len.toNat) else .error .overread

/-- The three shifts, by the length that is left. -/
def shiftBuffer (buffer : Bytes) (len : ℤ) : Bytes :=
  let v0 := buffer.getD 0 0
  let v1 := buffer.getD 1 0
  let v2 := buffer.getD 2 0
  let v3 := buffer.getD 3 0
  if len ≥ 2 then
    let buffer := buffer.set 0 (octet1 v0 v1)
    if len ≥ 3 then
      let buffer := buffer.set 1 (octet2 v1 v2)
      if len = 4 then buffer.set 2 (octet3 v2 v3) else buffer
    else buffer
  else buffer

/-- The body of the loop of `decode`, for the contents of `buffer` and what was written, call by
call. -/
def decodeBody (s : Bytes × List Bytes) (got : Bytes) :
    Except Fault ((Bytes × List Bytes) ⊕ List Bytes) := do
  let buffer := fill s.1 (got.map fun b => (decodeChar b).getD 0)
  let offset : ℤ := -(got.countP fun b => (decodeChar b).isNone)
  let len := got.length + offset
  let buffer := shiftBuffer buffer len
  let written ← writeBuffer buffer (len - 1)
  return .inl (buffer, s.2 ++ [written])

/-- `decode`: what is written to `dest`, call by call. -/
def decode {σ : Type} [InputStream σ] (src : σ) : Except Fault (List Bytes) :=
  groupLoop 4 decodeBody Prod.snd (InputStream.left src + 1) ([0, 0, 0, 0], []) src

/-- Table 1: the Base64 alphabet. -/
def alphabet (n : ℕ) : UInt8 :=
  if n < 26 then .ofNat (65 + n)
  else if n < 52 then .ofNat (71 + n)
  else if n < 62 then .ofNat (n - 4)
  else if n = 62 then 43
  else 47

/-- Section 4: 24-bit groups as four characters; a group of 8 or 16 bits gets zero bits up to an
integral number of characters, and the padding character fills it up. -/
def base64Text : Bytes → Bytes
  | [] => []
  | [a] =>
    let n := a.toNat * 2 ^ 4
    [alphabet (n / 2 ^ 6), alphabet (n % 2 ^ 6), 61, 61]
  | [a, b] =>
    let n := (a.toNat * 2 ^ 8 + b.toNat) * 2 ^ 2
    [alphabet (n / 2 ^ 12), alphabet (n / 2 ^ 6 % 2 ^ 6), alphabet (n % 2 ^ 6), 61]
  | a :: b :: c :: rest =>
    let n := (a.toNat * 2 ^ 8 + b.toNat) * 2 ^ 8 + c.toNat
    alphabet (n / 2 ^ 18) :: alphabet (n / 2 ^ 12 % 2 ^ 6) :: alphabet (n / 2 ^ 6 % 2 ^ 6) ::
      alphabet (n % 2 ^ 6) :: base64Text rest

example : base64Text (bytes "Ciallo Wor") = bytes "Q2lhbGxvIFdvcg==" := by decide

theorem encodeBits_eq {b : UInt8} {n : ℕ} (hb : b.toNat = n) (h : n < 64) :
    encodeBits b = alphabet n := by
  have htable : ∀ n < 64, base64CodePage.getD n 0 = alphabet n := by decide +kernel
  rw [encodeBits, hb, htable n h]

theorem toNat_or_of_lt {x y : UInt8} {m n k : ℕ} (hx : x.toNat = m <<< k) (hy : y.toNat = n)
    (h : n < 2 ^ k) : (x ||| y).toNat = m * 2 ^ k + n := by
  rw [UInt8.toNat_or, hx, hy, ← Nat.shiftLeft_add_eq_or_of_lt h, Nat.shiftLeft_eq]

theorem toNat_shiftRight_and {mask k : UInt8} {j : ℕ} (hk : k.toNat < 8)
    (hmask : mask.toNat >>> k.toNat = 2 ^ j - 1) (b : UInt8) :
    ((b &&& mask) >>> k).toNat = b.toNat / 2 ^ k.toNat % 2 ^ j := by
  rw [UInt8.toNat_shiftRight, UInt8.toNat_and, Nat.mod_eq_of_lt hk, Nat.shiftRight_and_distrib, hmask,
    Nat.and_two_pow_sub_one_eq_mod, Nat.shiftRight_eq_div_pow]

theorem toNat_shiftLeft_and {mask k : UInt8} {j : ℕ} (hk : k.toNat < 8) (hmask : mask.toNat = 2 ^ j - 1)
    (hfits : j + k.toNat ≤ 8) (b : UInt8) :
    ((b &&& mask) <<< k).toNat = (b.toNat % 2 ^ j) <<< k.toNat := by
  have hlt : (b.toNat % 2 ^ j) * 2 ^ k.toNat < 2 ^ 8 := by
    calc
      _ < 2 ^ j * 2 ^ k.toNat :=
        Nat.mul_lt_mul_of_pos_right (Nat.mod_lt _ (Nat.two_pow_pos j)) (Nat.two_pow_pos _)
      _ = 2 ^ (j + k.toNat) := (pow_add 2 j k.toNat).symm
      _ ≤ 2 ^ 8 := Nat.pow_le_pow_right (by norm_num) hfits
  rw [UInt8.toNat_shiftLeft, UInt8.toNat_and, Nat.mod_eq_of_lt hk, hmask,
    Nat.and_two_pow_sub_one_eq_mod, Nat.shiftLeft_eq, Nat.mod_eq_of_lt hlt]

theorem toNat_bits1 (b0 : UInt8) : (bits1 b0).toNat = b0.toNat / 4 := by
  have hpart := @toNat_shiftRight_and 0b11111100 2 6 (by decide) rfl b0
  have hlt := b0.toNat_lt
  rw [bits1, hpart]
  change b0.toNat / 4 % 64 = _
  omega

theorem toNat_bits2 (b0 b1 : UInt8) :
    (bits2 b0 b1).toNat = b0.toNat % 4 * 2 ^ 4 + b1.toNat / 16 := by
  have hhigh := @toNat_shiftLeft_and 0b00000011 4 2 (by decide) rfl (by decide) b0
  have hlow := @toNat_shiftRight_and 0b11110000 4 4 (by decide) rfl b1
  have hlt := b1.toNat_lt
  have hsame : b1.toNat / 2 ^ 4 % 2 ^ 4 = b1.toNat / 16 := by omega
  exact toNat_or_of_lt hhigh (hlow.trans hsame) (by omega)

theorem toNat_bits3 (b1 b2 : UInt8) :
    (bits3 b1 b2).toNat = b1.toNat % 16 * 2 ^ 2 + b2.toNat / 64 := by
  have hhigh := @toNat_shiftLeft_and 0b00001111 2 4 (by decide) rfl (by decide) b1
  have hlow := @toNat_shiftRight_and 0b11000000 6 2 (by decide) rfl b2
  have hlt := b2.toNat_lt
  have hsame : b2.toNat / 2 ^ 6 % 2 ^ 2 = b2.toNat / 64 := by omega
  exact toNat_or_of_lt hhigh (hlow.trans hsame) (by omega)

theorem toNat_bits4 (b2 : UInt8) : (bits4 b2).toNat = b2.toNat % 64 := by
  rw [bits4, UInt8.toNat_and]
  exact Nat.and_two_pow_sub_one_eq_mod b2.toNat 6

theorem toNat_octet1 (v0 v1 : UInt8) :
    (octet1 v0 v1).toNat = v0.toNat % 64 * 2 ^ 2 + v1.toNat % 64 / 16 := by
  have hhigh : (v0 <<< 2).toNat = (v0.toNat % 64) <<< 2 := by
    rw [UInt8.toNat_shiftLeft, Nat.shiftLeft_eq, Nat.shiftLeft_eq]
    change v0.toNat * 4 % 256 = v0.toNat % 64 * 4
    omega
  have hlow := @toNat_shiftRight_and 0b00110000 4 2 (by decide) rfl v1
  have hsame : v1.toNat / 2 ^ 4 % 2 ^ 2 = v1.toNat % 64 / 16 := by omega
  exact toNat_or_of_lt hhigh (hlow.trans hsame) (by omega)

theorem toNat_octet2 (v1 v2 : UInt8) :
    (octet2 v1 v2).toNat = v1.toNat % 16 * 2 ^ 4 + v2.toNat % 64 / 4 := by
  have hhigh := @toNat_shiftLeft_and 0b00001111 4 4 (by decide) rfl (by decide) v1
  have hlow := @toNat_shiftRight_and 0b00111100 2 4 (by decide) rfl v2
  have hsame : v2.toNat / 2 ^ 2 % 2 ^ 4 = v2.toNat % 64 / 4 := by omega
  exact toNat_or_of_lt hhigh (hlow.trans hsame) (by omega)

theorem toNat_octet3 {v3 : UInt8} (h : v3.toNat < 64) (v2 : UInt8) :
    (octet3 v2 v3).toNat = v2.toNat % 4 * 2 ^ 6 + v3.toNat := by
  have hhigh := @toNat_shiftLeft_and 0b00000011 6 2 (by decide) rfl (by decide) v2
  exact toNat_or_of_lt hhigh rfl h

theorem decodeChar_alphabet {n : ℕ} (h : n < 64) : decodeChar (alphabet n) = some (.ofNat n) := by
  revert n
  decide +kernel

theorem encodeBody_three (x y z a b c : UInt8) (out : Bytes) :
    encodeBody ([x, y, z], out) [a, b, c] = .ok (.inl ([a, b, c], out ++ [encodeBits (bits1 a),
      encodeBits (bits2 a b), encodeBits (bits3 b c), encodeBits (bits4 c)])) := rfl

theorem encodeBody_two (x y z a b : UInt8) (out : Bytes) :
    encodeBody ([x, y, z], out) [a, b] = .ok (.inl ([a, b, 0], out ++ [encodeBits (bits1 a),
      encodeBits (bits2 a b), encodeBits (bits3 b 0)] ++ [61])) := rfl

theorem encodeBody_one (x y z a : UInt8) (out : Bytes) :
    encodeBody ([x, y, z], out) [a] = .ok (.inl ([a, 0, 0], out ++ [encodeBits (bits1 a),
      encodeBits (bits2 a 0)] ++ [61, 61])) := rfl

theorem encodeBits_bits1 {a : UInt8} {n : ℕ} (h : n = a.toNat / 4) :
    encodeBits (bits1 a) = alphabet n := by
  have hlt := a.toNat_lt
  exact encodeBits_eq (by rw [toNat_bits1, h]) (by omega)

theorem encodeBits_bits2 {a b : UInt8} {n : ℕ} (h : n = a.toNat % 4 * 2 ^ 4 + b.toNat / 16) :
    encodeBits (bits2 a b) = alphabet n := by
  have hlt := b.toNat_lt
  exact encodeBits_eq (by rw [toNat_bits2, h]) (by omega)

theorem encodeBits_bits3 {b c : UInt8} {n : ℕ} (h : n = b.toNat % 16 * 2 ^ 2 + c.toNat / 64) :
    encodeBits (bits3 b c) = alphabet n := by
  have hlt := c.toNat_lt
  exact encodeBits_eq (by rw [toNat_bits3, h]) (by omega)

theorem encodeBits_bits4 {c : UInt8} {n : ℕ} (h : n = c.toNat % 64) :
    encodeBits (bits4 c) = alphabet n :=
  encodeBits_eq (by rw [toNat_bits4, h]) (by omega)

theorem overGroups_encodeBody (x y z : UInt8) (out u : Bytes) :
    overGroups encodeBody Prod.snd ([x, y, z], out) (cut 3 u) = .ok (out ++ base64Text u) := by
  fun_induction base64Text u generalizing x y z out with
  | case1 => simp [cut_nil, overGroups]
  | case2 a n =>
    have hcut : cut 3 [a] = [[a]] := cut_last (by simp) (by simp)
    have h1 : encodeBits (bits1 a) = alphabet (n / 2 ^ 6) := encodeBits_bits1 (by omega)
    have h2 : encodeBits (bits2 a 0) = alphabet (n % 2 ^ 6) := encodeBits_bits2 (by simp [n]; omega)
    rw [hcut, overGroups, encodeBody_one, h1, h2]
    simp [overGroups]
  | case3 a b n =>
    have hcut : cut 3 [a, b] = [[a, b]] := cut_last (by simp) (by simp)
    have hlt := b.toNat_lt
    have h1 : encodeBits (bits1 a) = alphabet (n / 2 ^ 12) := encodeBits_bits1 (by omega)
    have h2 : encodeBits (bits2 a b) = alphabet (n / 2 ^ 6 % 2 ^ 6) := encodeBits_bits2 (by omega)
    have h3 : encodeBits (bits3 b 0) = alphabet (n % 2 ^ 6) := encodeBits_bits3 (by simp [n]; omega)
    rw [hcut, overGroups, encodeBody_two, h1, h2, h3]
    simp [overGroups]
  | case4 a b c rest n ih =>
    have hcut : cut 3 ([a, b, c] ++ rest) = [a, b, c] :: cut 3 rest :=
      cut_append (by simp) (.inl rfl)
    change overGroups _ _ _ (cut 3 ([a, b, c] ++ rest)) = _
    have hb := b.toNat_lt
    have hc := c.toNat_lt
    have h1 : encodeBits (bits1 a) = alphabet (n / 2 ^ 18) := encodeBits_bits1 (by omega)
    have h2 : encodeBits (bits2 a b) = alphabet (n / 2 ^ 12 % 2 ^ 6) := encodeBits_bits2 (by omega)
    have h3 : encodeBits (bits3 b c) = alphabet (n / 2 ^ 6 % 2 ^ 6) := encodeBits_bits3 (by omega)
    have h4 : encodeBits (bits4 c) = alphabet (n % 2 ^ 6) := encodeBits_bits4 (by omega)
    rw [hcut, overGroups, encodeBody_three, h1, h2, h3, h4]
    simp [ih]

/-- What `encode` writes is the text of RFC 4648. -/
theorem encode_eq {σ : Type} [InputStream σ] {Holds : σ → Bytes → Prop} (h : Fills Holds) {src : σ}
    {u : Bytes} (hu : Holds src u) : encode src = .ok (base64Text u) := by
  rw [encode, h.groupLoop_eq hu (by decide), overGroups_encodeBody, List.nil_append]

def sextets (group : Bytes) : Bytes := group.map fun b => (decodeChar b).getD 0

/-- How many characters of the group are in the alphabet. -/
def valid (group : Bytes) : ℕ := group.countP fun b => (decodeChar b).isSome

def octetsOf (group : Bytes) : Bytes :=
  let v := sextets group
  [octet1 (v.getD 0 0) (v.getD 1 0), octet2 (v.getD 1 0) (v.getD 2 0),
    octet3 (v.getD 2 0) (v.getD 3 0)].take (valid group - 1)

theorem valid_le (group : Bytes) : valid group ≤ group.length := List.countP_le_length

theorem length_sub_invalid (group : Bytes) :
    (group.length : ℤ) + -((group.countP fun b => (decodeChar b).isNone : ℕ) : ℤ) = valid group := by
  have hsplit := List.length_eq_countP_add_countP (fun b => (decodeChar b).isSome) (l := group)
  have hnot : (group.countP fun b => (decodeChar b).isNone) =
      group.countP fun b => ¬ (decodeChar b).isSome := by
    congr 1
    funext b
    cases decodeChar b <;> rfl
  unfold valid
  rw [hnot]
  simp only [decide_not] at hsplit ⊢
  omega

theorem getD_fill {buffer group : Bytes} {i : ℕ} (h : i < group.length) :
    (fill buffer (sextets group)).getD i 0 = (sextets group).getD i 0 := by
  have hlen : i < (sextets group).length := by rwa [sextets, List.length_map]
  rw [fill, List.getD_eq_getElem?_getD, List.getElem?_append_left hlen, List.getD_eq_getElem?_getD]

theorem take_shiftBuffer {w0 w1 w2 w3 : UInt8} {group : Bytes} (hlen : group.length ≤ 4)
    (hget : ∀ i < group.length, [w0, w1, w2, w3].getD i 0 = (sextets group).getD i 0) :
    (shiftBuffer [w0, w1, w2, w3] (valid group)).take (valid group - 1) = octetsOf group := by
  have hvalid := valid_le group
  have h0 := hget 0
  have h1 := hget 1
  have h2 := hget 2
  have h3 := hget 3
  dsimp only [octetsOf]
  have hcases : valid group = 0 ∨ valid group = 1 ∨ valid group = 2 ∨ valid group = 3 ∨ valid group = 4 := by
    omega
  rcases hcases with hv | hv | hv | hv | hv
  · simp [hv]
  · simp [hv]
  · rw [hv, ← h0 (by omega), ← h1 (by omega)]
    rfl
  · rw [hv, ← h0 (by omega), ← h1 (by omega), ← h2 (by omega)]
    rfl
  · rw [hv, ← h0 (by omega), ← h1 (by omega), ← h2 (by omega), ← h3 (by omega)]
    rfl

theorem length_shiftBuffer (buffer : Bytes) (len : ℤ) : (shiftBuffer buffer len).length = buffer.length := by
  unfold shiftBuffer
  dsimp only
  split_ifs <;> simp

/-- A group makes fewer octets than it has characters that count, and the characters decide them;
a group without such a character makes the length negative. -/
theorem decodeBody_eq {buffer group : Bytes} (hbuffer : buffer.length = 4)
    (hlen : group.length ≤ 4) (writes : List Bytes) :
    ∃ buffer', buffer'.length = 4 ∧ decodeBody (buffer, writes) group =
      if valid group = 0 then .error .overread
      else .ok (.inl (buffer', writes ++ [octetsOf group])) := by
  have hvalid := valid_le group
  have hfill : (fill buffer (sextets group)).length = 4 := by
    simp only [fill, sextets, List.length_append, List.length_map, List.length_drop]
    omega
  have hget := fun i (h : i < group.length) => @getD_fill buffer group i h
  obtain ⟨w0, w1, w2, w3, hw⟩ := List.length_eq_four.mp hfill
  rw [hw] at hget
  have htake := take_shiftBuffer hlen hget
  have hbody : decodeBody (buffer, writes) group =
      (do
        let written ← writeBuffer (shiftBuffer [w0, w1, w2, w3] (valid group)) (valid group - 1)
        return .inl (shiftBuffer [w0, w1, w2, w3] (valid group), writes ++ [written])) := by
    rw [← hw, ← length_sub_invalid]
    rfl
  refine ⟨shiftBuffer [w0, w1, w2, w3] (valid group), by rw [length_shiftBuffer]; rfl, ?_⟩
  rw [hbody, writeBuffer, length_shiftBuffer]
  by_cases hnone : valid group = 0
  · rw [if_pos hnone, if_neg (by omega)]
    rfl
  · have hbounds : (0 : ℤ) ≤ valid group - 1 ∧ (valid group : ℤ) - 1 ≤ [w0, w1, w2, w3].length := by
      simp only [List.length_cons, List.length_nil]
      omega
    have hpred : ((valid group : ℤ) - 1).toNat = valid group - 1 := by omega
    rw [if_neg hnone, if_pos hbounds, hpred, htake]
    rfl

theorem length_octetsOf_le (group : Bytes) : (octetsOf group).length ≤ 3 :=
  List.length_take_le' _ _

theorem overGroups_decodeBody {groups : List Bytes} (hlen : ∀ group ∈ groups, group.length ≤ 4)
    {buffer : Bytes} (hbuffer : buffer.length = 4) (writes : List Bytes) :
    overGroups decodeBody Prod.snd (buffer, writes) groups =
      if ∀ group ∈ groups, valid group ≠ 0 then .ok (writes ++ groups.map octetsOf)
      else .error .overread := by
  induction groups generalizing buffer writes with
  | nil => simp [overGroups]
  | cons group groups ih =>
    rw [List.forall_mem_cons] at hlen
    obtain ⟨buffer', hbuffer', hbody⟩ := decodeBody_eq hbuffer hlen.1 writes
    rw [overGroups, hbody]
    by_cases hnone : valid group = 0
    · simp [hnone]
    · rw [if_neg hnone, ok_bind]
      dsimp only
      rw [ih hlen.2 hbuffer']
      simp [hnone]

/-- Every call of `dest->write` that `decode` makes gets at most three octets, those that the
characters of its group make, exactly when every group has a character of the alphabet. The
buffer and the other groups have no part in it. -/
theorem decode_safe_iff {σ : Type} [InputStream σ] {src : σ} {groups : List Bytes}
    (h : Gives 4 src groups) (hleft : groups.length ≤ InputStream.left src) :
    (∃ writes, decode src = .ok writes ∧
        List.Forall₂ (fun group written => written.length ≤ 3 ∧ written = octetsOf group) groups
          writes) ↔
      ∀ group ∈ groups, ∃ b ∈ group, (decodeChar b).isSome := by
  have hlen : ∀ group ∈ groups, group.length ≤ 4 := h.length_mem_le
  have hvalid : (∀ group ∈ groups, valid group ≠ 0) ↔
      ∀ group ∈ groups, ∃ b ∈ group, (decodeChar b).isSome := by
    simp only [valid, ne_eq, List.countP_eq_zero]
    push Not
    rfl
  have heq : decode src = _ :=
    (h.groupLoop_eq decodeBody Prod.snd ([0, 0, 0, 0], []) (by omega)).trans
      (overGroups_decodeBody hlen rfl [])
  rw [← hvalid, heq]
  constructor
  · rintro ⟨writes, hok, -⟩
    by_contra hnot
    rw [if_neg hnot] at hok
    cases hok
  · intro hall
    rw [if_pos hall]
    refine ⟨_, rfl, ?_⟩
    rw [List.nil_append, List.forall₂_map_right_iff, List.forall₂_same]
    exact fun group _ => ⟨length_octetsOf_le group, rfl⟩

theorem decode_safe_iff_padded :
    (∃ writes, decode (InputBufferWrapper.mk (bytes "QQ==") 0) = .ok writes ∧
        List.Forall₂ (fun group written => written.length ≤ 3 ∧ written = octetsOf group)
          [bytes "QQ=="] writes) ↔
      ∀ group ∈ [bytes "QQ=="], ∃ b ∈ group, (decodeChar b).isSome := by
  have hread : InputStream.read (InputBufferWrapper.mk (bytes "QQ==") 0) 4 =
      .ok (bytes "QQ==", InputBufferWrapper.mk (bytes "QQ==") 4) := rfl
  have hend : InputStream.read (InputBufferWrapper.mk (bytes "QQ==") 4) 4 =
      .ok ([], InputBufferWrapper.mk (bytes "QQ==") 4) := rfl
  exact decode_safe_iff (.cons hread (by decide) (by decide) (.nil hend)) (by decide)

/-- A group of padding only. -/
theorem decode_padding : decode (InputBufferWrapper.mk (bytes "====") 0) = .error .overread := by
  decide

theorem octet1_ofNat {v0 v1 : ℕ} (h0 : v0 < 64) (h1 : v1 < 64) {a : UInt8}
    (ha : a.toNat = v0 * 4 + v1 / 16) : octet1 (.ofNat v0) (.ofNat v1) = a := by
  apply UInt8.toNat_inj.mp
  rw [toNat_octet1, UInt8.toNat_ofNat', UInt8.toNat_ofNat', ha]
  omega

theorem octet2_ofNat {v1 v2 : ℕ} (h1 : v1 < 64) (h2 : v2 < 64) {b : UInt8}
    (hb : b.toNat = v1 % 16 * 16 + v2 / 4) : octet2 (.ofNat v1) (.ofNat v2) = b := by
  apply UInt8.toNat_inj.mp
  rw [toNat_octet2, UInt8.toNat_ofNat', UInt8.toNat_ofNat', hb]
  omega

theorem octet3_ofNat {v2 v3 : ℕ} (h2 : v2 < 64) (h3 : v3 < 64) {c : UInt8}
    (hc : c.toNat = v2 % 4 * 64 + v3) : octet3 (.ofNat v2) (.ofNat v3) = c := by
  have hlt : (UInt8.ofNat v3).toNat < 64 := by
    rw [UInt8.toNat_ofNat']
    omega
  apply UInt8.toNat_inj.mp
  rw [toNat_octet3 hlt, UInt8.toNat_ofNat', UInt8.toNat_ofNat', hc]
  omega

theorem decodeChar_padding : decodeChar 61 = none := by decide

theorem octetsOf_two {v0 v1 : ℕ} (h0 : v0 < 64) (h1 : v1 < 64) :
    valid [alphabet v0, alphabet v1, 61, 61] = 2 ∧
      octetsOf [alphabet v0, alphabet v1, 61, 61] = [octet1 (.ofNat v0) (.ofNat v1)] := by
  have hvalid : valid [alphabet v0, alphabet v1, 61, 61] = 2 := by
    simp [valid, decodeChar_alphabet h0, decodeChar_alphabet h1, decodeChar_padding]
  refine ⟨hvalid, ?_⟩
  simp [octetsOf, hvalid, sextets, decodeChar_alphabet h0, decodeChar_alphabet h1]

theorem octetsOf_three {v0 v1 v2 : ℕ} (h0 : v0 < 64) (h1 : v1 < 64) (h2 : v2 < 64) :
    valid [alphabet v0, alphabet v1, alphabet v2, 61] = 3 ∧
      octetsOf [alphabet v0, alphabet v1, alphabet v2, 61] =
        [octet1 (.ofNat v0) (.ofNat v1), octet2 (.ofNat v1) (.ofNat v2)] := by
  have hvalid : valid [alphabet v0, alphabet v1, alphabet v2, 61] = 3 := by
    simp [valid, decodeChar_alphabet h0, decodeChar_alphabet h1, decodeChar_alphabet h2,
      decodeChar_padding]
  refine ⟨hvalid, ?_⟩
  simp [octetsOf, hvalid, sextets, decodeChar_alphabet h0, decodeChar_alphabet h1,
    decodeChar_alphabet h2]

theorem octetsOf_four {v0 v1 v2 v3 : ℕ} (h0 : v0 < 64) (h1 : v1 < 64) (h2 : v2 < 64) (h3 : v3 < 64) :
    valid [alphabet v0, alphabet v1, alphabet v2, alphabet v3] = 4 ∧
      octetsOf [alphabet v0, alphabet v1, alphabet v2, alphabet v3] =
        [octet1 (.ofNat v0) (.ofNat v1), octet2 (.ofNat v1) (.ofNat v2),
          octet3 (.ofNat v2) (.ofNat v3)] := by
  have hvalid : valid [alphabet v0, alphabet v1, alphabet v2, alphabet v3] = 4 := by
    simp [valid, decodeChar_alphabet h0, decodeChar_alphabet h1, decodeChar_alphabet h2,
      decodeChar_alphabet h3]
  refine ⟨hvalid, ?_⟩
  simp [octetsOf, hvalid, sextets, decodeChar_alphabet h0, decodeChar_alphabet h1,
    decodeChar_alphabet h2, decodeChar_alphabet h3]

/-- The groups of a text are read as the octets that it was made of. -/
theorem map_octetsOf_base64Text (u : Bytes) :
    (∀ group ∈ cut 4 (base64Text u), valid group ≠ 0) ∧
      ((cut 4 (base64Text u)).map octetsOf).flatten = u := by
  fun_induction base64Text u with
  | case1 => simp [cut_nil]
  | case2 a n =>
    have ha := a.toNat_lt
    have h0 : n / 2 ^ 6 < 64 := by omega
    have h1 : n % 2 ^ 6 < 64 := by omega
    obtain ⟨hvalid, hoctets⟩ := octetsOf_two h0 h1
    rw [octet1_ofNat h0 h1 (show a.toNat = _ by omega)] at hoctets
    rw [cut_last (by simp) (by simp), List.map_singleton, hoctets]
    exact ⟨by simp only [List.forall_mem_singleton, hvalid]; decide, rfl⟩
  | case3 a b n =>
    have ha := a.toNat_lt
    have hb := b.toNat_lt
    have h0 : n / 2 ^ 12 < 64 := by omega
    have h1 : n / 2 ^ 6 % 2 ^ 6 < 64 := by omega
    have h2 : n % 2 ^ 6 < 64 := by omega
    obtain ⟨hvalid, hoctets⟩ := octetsOf_three h0 h1 h2
    rw [octet1_ofNat h0 h1 (show a.toNat = _ by omega),
      octet2_ofNat h1 h2 (show b.toNat = _ by omega)] at hoctets
    rw [cut_last (by simp) (by simp), List.map_singleton, hoctets]
    exact ⟨by simp only [List.forall_mem_singleton, hvalid]; decide, rfl⟩
  | case4 a b c rest n ih =>
    have ha := a.toNat_lt
    have hb := b.toNat_lt
    have hc := c.toNat_lt
    have h0 : n / 2 ^ 18 < 64 := by omega
    have h1 : n / 2 ^ 12 % 2 ^ 6 < 64 := by omega
    have h2 : n / 2 ^ 6 % 2 ^ 6 < 64 := by omega
    have h3 : n % 2 ^ 6 < 64 := by omega
    obtain ⟨hvalid, hoctets⟩ := octetsOf_four h0 h1 h2 h3
    rw [octet1_ofNat h0 h1 (show a.toNat = _ by omega),
      octet2_ofNat h1 h2 (show b.toNat = _ by omega),
      octet3_ofNat h2 h3 (show c.toNat = _ by omega)] at hoctets
    have hcut : cut 4 ([alphabet (n / 2 ^ 18), alphabet (n / 2 ^ 12 % 2 ^ 6),
        alphabet (n / 2 ^ 6 % 2 ^ 6), alphabet (n % 2 ^ 6)] ++ base64Text rest) = _ :=
      cut_append (by simp) (.inl rfl)
    simp only [List.cons_append, List.nil_append] at hcut
    rw [hcut, List.map_cons, List.flatten_cons, hoctets, ih.2]
    refine ⟨List.forall_mem_cons.mpr ⟨?_, ih.1⟩, rfl⟩
    rw [hvalid]
    decide

/-- Over sources that fill their reads, `encode` writes the text of RFC 4648, and `decode` of that
text writes what was encoded. -/
theorem text_roundTrips {σ τ : Type} [InputStream σ] [InputStream τ] {Holds : σ → Bytes → Prop}
    {Holds' : τ → Bytes → Prop} (h : Fills Holds) (h' : Fills Holds') {src : σ} {b : Bytes}
    (hb : Holds src b) :
    encode src = .ok (base64Text b) ∧ ∀ text, encode src = .ok text → ∀ src', Holds' src' text →
      ∃ writes, decode src' = .ok writes ∧ writes.flatten = b := by
  have hencode := encode_eq h hb
  refine ⟨hencode, ?_⟩
  intro text htext src' hsrc'
  obtain rfl := Except.ok.inj (hencode.symm.trans htext)
  obtain ⟨hvalid, hflatten⟩ := map_octetsOf_base64Text b
  have hlen : ∀ group ∈ cut 4 (base64Text b), group.length ≤ 4 := (h'.gives hsrc' (by decide)).length_mem_le
  refine ⟨_, ?_, hflatten⟩
  rw [decode, h'.groupLoop_eq hsrc' (by decide), overGroups_decodeBody hlen rfl, if_pos hvalid,
    List.nil_append]

theorem text_roundTrips_wrapper :
    encode (InputBufferWrapper.mk (bytes "Worl") 0) = .ok (base64Text (bytes "Worl")) ∧
      ∀ text, encode (InputBufferWrapper.mk (bytes "Worl") 0) = .ok text →
        ∀ src' : InputBufferWrapper, InputBufferWrapper.Holds src' text →
          ∃ writes, decode src' = .ok writes ∧ writes.flatten = bytes "Worl" :=
  text_roundTrips InputBufferWrapper.fills InputBufferWrapper.fills rfl

end Sese.Base64Converter
