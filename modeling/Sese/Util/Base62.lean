import Sese.Io.InputBufferWrapper
import Sese.Text.Conversions
import Mathlib.Data.Nat.Digits.Lemmas

/-!
# Base62

`encodeInteger`, `decodeBuffer`, `encodeBase62` and `decodeBase62` of `Base64Converter`. A number
has as many digits as it needs, and the text is cut into groups of four digits, so that a round
trip depends on the numbers.
-/
namespace Sese.Base64Converter

open Foundation Io
open Text (toInt toSize readAt)

def base62CodePage : Bytes :=
  bytes "ABCDEFGHIJKLMNOPQRSTUVWXYZabcdefghijklmnopqrstuvwxyz0123456789"

/-- The loop of `encodeInteger`; the number is an `int` in the division, and an `int` has six
digits at most. -/
def integerLoop : ℕ → ℕ → Bytes → Except Fault Bytes
  | 0, _, _ => .error .endlessLoop
  | fuel + 1, num, vector =>
    if num > 0 then do
      let digit ← readAt base62CodePage ((toInt num).tmod 62)
      integerLoop fuel (toSize ((toInt num).tdiv 62)) (vector ++ [digit])
    else return vector

/-- `encodeInteger`: what is written to an `output` that takes everything. -/
def encodeInteger (num : ℕ) : Except Fault Bytes :=
  if num = 0 then .ok [base62CodePage.getD 0 0]
  else do
    let vector ← integerLoop 8 num []
    return vector.reverse

/-- `static_cast<int64_t>(std::pow(62, power))`. The powers below `2 ^ 63` are those up to
`62 ^ 10`, and a `double` has them exactly: `31 ^ 10` is less than `2 ^ 53`. -/
def pow62 (power : ℕ) : Except Fault ℤ :=
  if 62 ^ power < 2 ^ 63 then .ok (62 ^ power : ℕ) else .error .intOverflow

/-- The loop of `decodeBuffer`. -/
def bufferLoop : Bytes → ℤ → Except Fault ℤ
  | [], num => .ok num
  | b :: buffer, num =>
    match base62CodePage.idxOf? b with
    | none => .ok (-1)
    | some i => do
      let power ← pow62 buffer.length
      bufferLoop buffer (Int.bmod (num + i * power) (2 ^ 64))

def decodeBuffer (buffer : Bytes) : Except Fault ℤ := bufferLoop buffer 0

/-- The body of the loop of `encodeBase62`: the octets are moved to the end of a buffer of four,
behind zeros. -/
def encode62Body (out got : Bytes) : Except Fault (Bytes ⊕ Bytes) := do
  let written ← encodeInteger (fromBigEndian (List.replicate (4 - got.length) 0 ++ got))
  return .inl (out ++ written)

/-- `encodeBase62`: what is written to an `output` that takes everything. -/
def encodeBase62 {σ : Type} [InputStream σ] (input : σ) : Except Fault Bytes :=
  groupLoop 3 encode62Body id (InputStream.left input + 1) [] input

/-- The body of the loop of `decodeBase62`; `num` is laid out with its most significant octet in
front. -/
def decode62Body (out got : Bytes) : Except Fault (Bytes ⊕ Bool × Bytes) := do
  let num ← decodeBuffer got
  if num = -1 then return .inr (false, out)
  else
    let octets := toBigEndian32 (toUInt64 num)
    if got.length = 4 then return .inl (out ++ (octets.drop 1).take 3)
    else if got.length = 3 then return .inl (out ++ (octets.drop 2).take 2)
    else if got.length = 2 then return .inl (out ++ (octets.drop 3).take 1)
    else return .inr (false, out)

/-- `decodeBase62`, with an `output` that takes everything: the result, and what is written. -/
def decodeBase62 {σ : Type} [InputStream σ] (input : σ) : Except Fault (Bool × Bytes) :=
  groupLoop 4 decode62Body (fun out => (true, out)) (InputStream.left input + 1) [] input

example : encodeBase62 (InputBufferWrapper.mk (bytes "sese-core-library") 0) =
    .ok (bytes "ftXlby7peoC5MeaFbEZbHmp") := by decide +kernel

/-- The number that the digits say, the first one being the most significant. -/
def value : List ℕ → ℕ
  | [] => 0
  | d :: ds => d * 62 ^ ds.length + value ds

def digits62 (n : ℕ) : List ℕ := if n = 0 then [0] else (Nat.digits 62 n).reverse

theorem value_append (xs ys : List ℕ) : value (xs ++ ys) = value xs * 62 ^ ys.length + value ys := by
  induction xs with
  | nil => simp [value]
  | cons d xs ih =>
    rw [List.cons_append, value, value, ih, List.length_append, pow_add]
    ring

theorem value_reverse (ds : List ℕ) : value ds.reverse = Nat.ofDigits 62 ds := by
  induction ds with
  | nil => rfl
  | cons d ds ih =>
    rw [List.reverse_cons, value_append, ih, Nat.ofDigits_cons]
    simp [value]
    ring

theorem value_digits62 (n : ℕ) : value (digits62 n) = n := by
  unfold digits62
  split_ifs with h
  · subst h
    rfl
  · rw [value_reverse, Nat.ofDigits_digits]

theorem digits62_lt (n : ℕ) : ∀ d ∈ digits62 n, d < 62 := by
  unfold digits62
  split_ifs
  · simp
  · intro d hd
    exact Nat.digits_lt_base (by decide) (List.mem_reverse.mp hd)

theorem value_lt {ds : List ℕ} (h : ∀ d ∈ ds, d < 62) : value ds < 62 ^ ds.length := by
  rw [← List.reverse_reverse ds, value_reverse, List.length_reverse]
  exact Nat.ofDigits_lt_base_pow_length (by decide) (by simpa using h)

theorem length_digits62_pos (n : ℕ) : 0 < (digits62 n).length := by
  unfold digits62
  split_ifs with h
  · simp
  · rw [List.length_reverse]
    exact List.length_pos_of_ne_nil (Nat.digits_ne_nil_iff_ne_zero.mpr h)

theorem length_digits62_le {n k : ℕ} (hk : 0 < k) : (digits62 n).length ≤ k ↔ n < 62 ^ k := by
  unfold digits62
  split_ifs with h
  · subst h
    simp
    omega
  · rw [List.length_reverse, Nat.digits_length_le_iff (by decide)]

theorem head_digits62 {n : ℕ} (h : n ≠ 0) : ∃ d ds, digits62 n = d :: ds ∧ d ≠ 0 := by
  have hne : Nat.digits 62 n ≠ [] := Nat.digits_ne_nil_iff_ne_zero.mpr h
  have hsplit := List.dropLast_append_getLast hne
  refine ⟨(Nat.digits 62 n).getLast hne, (Nat.digits 62 n).dropLast.reverse, ?_,
    Nat.getLast_digit_ne_zero 62 h⟩
  rw [digits62, if_neg h]
  conv_lhs => rw [← hsplit]
  rw [List.reverse_append, List.reverse_singleton, List.singleton_append]

def chars (ds : List ℕ) : Bytes := ds.map fun d => base62CodePage.getD d 0

theorem readAt_page {d : ℕ} (h : d < 62) :
    readAt base62CodePage (d : ℤ) = .ok (base62CodePage.getD d 0) := by
  have hlen : base62CodePage.length = 62 := by decide
  apply Text.readAt_natCast
  rw [List.getD_eq_getElem?_getD, List.getElem?_eq_getElem (by omega)]
  rfl

theorem integerLoop_eq {fuel n : ℕ} (hn : n < 2 ^ 31) (hfuel : n < 62 ^ fuel) (vector : Bytes) :
    integerLoop (fuel + 1) n vector = .ok (vector ++ chars (Nat.digits 62 n)) := by
  induction fuel generalizing n vector with
  | zero =>
    obtain rfl : n = 0 := by simpa using hfuel
    simp [integerLoop, chars]
  | succ fuel ih =>
    rw [integerLoop]
    by_cases h : n > 0
    · have hlt : n / 62 < 62 ^ fuel := by
        rw [pow_succ] at hfuel
        exact Nat.div_lt_of_lt_mul (by rwa [Nat.mul_comm])
      have hmod : (toInt n).tmod 62 = ((n % 62 : ℕ) : ℤ) := by
        rw [Text.toInt_of_lt hn]
        rfl
      have hdiv : toSize ((toInt n).tdiv 62) = n / 62 := by
        rw [Text.toInt_of_lt hn]
        change toSize ((n / 62 : ℕ) : ℤ) = _
        have hle := Nat.div_le_self n 62
        exact Text.toSize_natCast (by unfold Text.sizeBound; omega)
      rw [if_pos h, hmod, hdiv, readAt_page (Nat.mod_lt n (by decide)), ok_bind,
        ih (by omega) hlt, Nat.digits_of_two_le_of_pos (by decide) h]
      simp [chars]
    · obtain rfl : n = 0 := by omega
      rw [if_neg h]
      simp [chars]

theorem encodeInteger_eq {n : ℕ} (hn : n < 2 ^ 31) : encodeInteger n = .ok (chars (digits62 n)) := by
  unfold encodeInteger digits62
  split_ifs with h
  · rfl
  · have hfuel : n < 62 ^ 7 := hn.trans (by norm_num)
    have hloop := integerLoop_eq hn hfuel []
    rw [hloop, List.nil_append, ok_bind, chars, chars, List.map_reverse]
    rfl

theorem toInt_toSize {i : ℤ} (hlow : -2 ^ 31 ≤ i) (h : i < 2 ^ 31) : toInt (toSize i) = i := by
  have hpos : 0 ≤ i % 2 ^ 64 := Int.emod_nonneg i (by norm_num)
  have hcast : ((toSize i : ℕ) : ℤ) = i % 2 ^ 64 := by
    rw [toSize, Text.sizeBound, Nat.cast_pow, Nat.cast_ofNat, Int.toNat_of_nonneg hpos]
  have hdvd : (4294967296 : ℤ) ∣ 18446744073709551616 := by norm_num
  have hsame : Int.bmod (i % 2 ^ 64) (2 ^ 32) = Int.bmod i (2 ^ 32) := by
    rw [Int.bmod_def, Int.bmod_def]
    push_cast
    rw [Int.emod_emod_of_dvd i hdvd]
  unfold toInt
  rw [hcast]
  rw [hsame]
  apply Int.bmod_eq_of_le
  · push_cast
    omega
  · push_cast
    omega

/-- A number that is negative as an `int` has a digit in front of the table. -/
theorem integerLoop_neg {fuel n j : ℕ} (hn : toInt n = -j) (hpos : 0 < j) (hle : j ≤ 2 ^ 31)
    (hfuel : j < 62 ^ fuel) (vector : Bytes) :
    integerLoop (fuel + 1) n vector = .error .overread := by
  induction fuel generalizing n j vector with
  | zero =>
    rw [pow_zero] at hfuel
    omega
  | succ fuel ih =>
    have hsome : n > 0 := by
      by_contra h
      obtain rfl : n = 0 := by omega
      have hzero : toInt 0 = 0 := rfl
      omega
    have hmod : (toInt n).tmod 62 = -((j % 62 : ℕ) : ℤ) := by
      rw [hn, Int.neg_tmod]
      rfl
    have hdiv : (toInt n).tdiv 62 = -((j / 62 : ℕ) : ℤ) := by
      rw [hn, Int.neg_tdiv]
      rfl
    rw [integerLoop, if_pos hsome, hmod, hdiv]
    by_cases hdigit : j % 62 = 0
    · have hlt : j / 62 < 62 ^ fuel := by
        rw [pow_succ] at hfuel
        exact Nat.div_lt_of_lt_mul (by rwa [Nat.mul_comm])
      have hnext : toInt (toSize (-((j / 62 : ℕ) : ℤ))) = -((j / 62 : ℕ) : ℤ) :=
        toInt_toSize (by omega) (by omega)
      have hread : readAt base62CodePage (-((j % 62 : ℕ) : ℤ)) = .ok (base62CodePage.getD 0 0) := by
        rw [hdigit]
        exact readAt_page (by decide)
      rw [hread, ok_bind]
      exact ih hnext (by omega) (by omega) hlt _
    · rw [readAt, if_neg (by omega)]
      rfl

theorem integerLoop_pos {fuel n k : ℕ} (hn : toInt n = k) (hpos : 0 < k) (vector : Bytes) :
    integerLoop (fuel + 1) n vector = integerLoop (fuel + 1) k vector := by
  have hk : k < 2 ^ 31 := by
    have hlt := Text.toInt_lt n
    omega
  have hsome : n > 0 := by
    by_contra h
    obtain rfl : n = 0 := by omega
    have hzero : toInt 0 = 0 := rfl
    omega
  rw [integerLoop, integerLoop, if_pos hsome, if_pos hpos, hn, Text.toInt_of_lt hk]

theorem encodeInteger_big {n : ℕ} (hn : 2 ^ 31 ≤ n) :
    (∃ k < 2 ^ 31, encodeInteger n = .ok (chars (digits62 k))) ∨
      ∃ fault, encodeInteger n = .error fault := by
  have hne : n ≠ 0 := by omega
  have hlt := Text.toInt_lt n
  have hle := Text.le_toInt n
  rw [encodeInteger, if_neg hne]
  rcases lt_trichotomy (toInt n) 0 with hneg | hzero | hpos
  · obtain ⟨j, hj⟩ : ∃ j : ℕ, toInt n = -j := ⟨(-toInt n).toNat, by omega⟩
    have hjle : j ≤ 2 ^ 31 := by omega
    right
    rw [integerLoop_neg hj (by omega) hjle (hjle.trans_lt (by norm_num))]
    exact ⟨_, rfl⟩
  · left
    refine ⟨0, by decide, ?_⟩
    rw [integerLoop, if_pos (by omega), hzero]
    rfl
  · obtain ⟨k, hk⟩ : ∃ k : ℕ, toInt n = k := ⟨(toInt n).toNat, by omega⟩
    left
    refine ⟨k, by omega, ?_⟩
    have hkey := @encodeInteger_eq k (by omega)
    rw [encodeInteger, if_neg (by omega)] at hkey
    rw [integerLoop_pos hk (by omega), hkey]

theorem idxOf_page {d : ℕ} (h : d < 62) :
    base62CodePage.idxOf? (base62CodePage.getD d 0) = some d := by
  revert d
  decide +kernel

theorem bufferLoop_eq {ds : List ℕ} (hds : ∀ d ∈ ds, d < 62) (hlen : ds.length ≤ 10) {n : ℕ}
    (hn : n + value ds < 2 ^ 63) : bufferLoop (chars ds) n = .ok (n + value ds : ℕ) := by
  induction ds generalizing n with
  | nil => rfl
  | cons d ds ih =>
    rw [List.forall_mem_cons] at hds
    rw [List.length_cons] at hlen
    rw [value] at hn ⊢
    have hpow : 62 ^ ds.length < 2 ^ 63 :=
      (Nat.pow_le_pow_right (by decide) (by omega : ds.length ≤ 9)).trans_lt (by norm_num)
    have hsum : Int.bmod ((n : ℤ) + (d : ℤ) * (62 ^ ds.length : ℕ)) (2 ^ 64) =
        (n + d * 62 ^ ds.length : ℕ) := by
      have hcast : (n : ℤ) + (d : ℤ) * (62 ^ ds.length : ℕ) = (n + d * 62 ^ ds.length : ℕ) := by
        push_cast
        ring
      rw [hcast]
      generalize d * 62 ^ ds.length = k at hn ⊢
      apply Int.bmod_eq_of_le
      · push_cast
        omega
      · push_cast
        omega
    have hlength : (chars ds).length = ds.length := List.length_map _
    rw [chars, List.map_cons, bufferLoop, idxOf_page hds.1]
    change (do
      let power ← pow62 (chars ds).length
      bufferLoop (chars ds) (Int.bmod (n + d * power) (2 ^ 64))) = _
    rw [hlength, pow62, if_pos hpow, ok_bind, hsum, ih hds.2 (by omega) (by omega), Nat.add_assoc]

theorem decodeBuffer_chars {ds : List ℕ} (hds : ∀ d ∈ ds, d < 62) (hlen : ds.length ≤ 10) :
    decodeBuffer (chars ds) = .ok (value ds) := by
  have hlt := (value_lt hds).trans_le (Nat.pow_le_pow_right (by decide) hlen)
  have hbound : value ds < 2 ^ 63 := hlt.trans (by norm_num)
  have h := @bufferLoop_eq ds hds hlen 0 (by rwa [Nat.zero_add])
  rwa [Nat.zero_add] at h

/-- The digits of the groups of three octets. -/
def digitsOf : Bytes → List ℕ
  | [] => []
  | [a] => digits62 (fromBigEndian [a])
  | [a, b] => digits62 (fromBigEndian [a, b])
  | a :: b :: c :: rest => digits62 (fromBigEndian [a, b, c]) ++ digitsOf rest

/-- The octets of the groups of four digits; `none` for a single digit. -/
def reads : List ℕ → Option Bytes
  | [] => some []
  | [_] => none
  | [d, e] => some ((toBigEndian32 (value [d, e])).drop 3)
  | [d, e, f] => some ((toBigEndian32 (value [d, e, f])).drop 2)
  | d :: e :: f :: g :: rest =>
    (reads rest).map ((toBigEndian32 (value [d, e, f, g])).drop 1 ++ ·)

/-- Every group has one digit more than it has octets. -/
def Padless : Bytes → Prop
  | [] => True
  | [a] => 62 ≤ a.toNat
  | [a, b] => 62 ^ 2 ≤ fromBigEndian [a, b]
  | a :: b :: c :: rest =>
    (62 ^ 3 ≤ fromBigEndian [a, b, c] ∧ fromBigEndian [a, b, c] < 62 ^ 4) ∧ Padless rest

instance decidablePadless : ∀ u, Decidable (Padless u)
  | [] => isTrue trivial
  | [a] => inferInstanceAs (Decidable (62 ≤ a.toNat))
  | [a, b] => inferInstanceAs (Decidable (62 ^ 2 ≤ fromBigEndian [a, b]))
  | _ :: _ :: _ :: rest =>
    have := decidablePadless rest
    inferInstanceAs (Decidable (_ ∧ _))

theorem fromBigEndian_one (a : UInt8) : fromBigEndian [a] = a.toNat := by
  simp [fromBigEndian]

theorem fromBigEndian_two (a b : UInt8) : fromBigEndian [a, b] = a.toNat * 2 ^ 8 + b.toNat := by
  simp [fromBigEndian]
  omega

theorem fromBigEndian_three (a b c : UInt8) :
    fromBigEndian [a, b, c] = a.toNat * 2 ^ 16 + b.toNat * 2 ^ 8 + c.toNat := by
  simp [fromBigEndian]
  omega

theorem fromBigEndian_zeros (k : ℕ) (u : Bytes) :
    fromBigEndian (List.replicate k 0 ++ u) = fromBigEndian u := by
  induction k with
  | zero => rfl
  | succ k ih => exact ih

theorem chars_append (ds es : List ℕ) : chars (ds ++ es) = chars ds ++ chars es := List.map_append

theorem encode62Body_eq {got : Bytes} (hlt : fromBigEndian got < 2 ^ 31) (out : Bytes) :
    encode62Body out got = .ok (.inl (out ++ chars (digits62 (fromBigEndian got)))) := by
  rw [encode62Body, fromBigEndian_zeros, encodeInteger_eq hlt]
  rfl

theorem overGroups_encode62Body (out u : Bytes) :
    overGroups encode62Body id out (cut 3 u) = .ok (out ++ chars (digitsOf u)) := by
  fun_induction digitsOf u generalizing out with
  | case1 => simp [cut_nil, overGroups, chars]
  | case2 a =>
    have hlt := a.toNat_lt
    have hgroup := @encode62Body_eq [a] (by rw [fromBigEndian_one]; omega) out
    rw [cut_last (by simp) (by simp), overGroups, hgroup]
    rfl
  | case3 a b =>
    have ha := a.toNat_lt
    have hb := b.toNat_lt
    have hgroup := @encode62Body_eq [a, b] (by rw [fromBigEndian_two]; omega) out
    rw [cut_last (by simp) (by simp), overGroups, hgroup]
    rfl
  | case4 a b c rest ih =>
    have ha := a.toNat_lt
    have hb := b.toNat_lt
    have hc := c.toNat_lt
    have hgroup := @encode62Body_eq [a, b, c] (by rw [fromBigEndian_three]; omega) out
    have hcut : cut 3 ([a, b, c] ++ rest) = _ := cut_append (by simp) (.inl rfl)
    change overGroups _ _ _ (cut 3 ([a, b, c] ++ rest)) = _
    rw [hcut, overGroups, hgroup, ok_bind]
    dsimp only
    rw [ih, chars_append, List.append_assoc]

theorem encodeBase62_eq {σ : Type} [InputStream σ] {Holds : σ → Bytes → Prop} (h : Fills Holds)
    {input : σ} {u : Bytes} (hu : Holds input u) : encodeBase62 input = .ok (chars (digitsOf u)) := by
  rw [encodeBase62, h.groupLoop_eq hu (by decide), overGroups_encode62Body, List.nil_append]

theorem digitsOf_lt (u : Bytes) : ∀ d ∈ digitsOf u, d < 62 := by
  fun_induction digitsOf u with
  | case1 => simp
  | case2 => exact digits62_lt _
  | case3 => exact digits62_lt _
  | case4 a b c rest ih =>
    intro d hd
    rcases List.mem_append.mp hd with hd | hd
    · exact digits62_lt _ d hd
    · exact ih d hd

theorem decode62Body_eq {ds : List ℕ} (hds : ∀ d ∈ ds, d < 62) (hlen : ds.length ≤ 4) (out : Bytes) :
    decode62Body out (chars ds) =
      if ds.length = 4 then .ok (.inl (out ++ (toBigEndian32 (value ds)).drop 1))
      else if ds.length = 3 then .ok (.inl (out ++ (toBigEndian32 (value ds)).drop 2))
      else if ds.length = 2 then .ok (.inl (out ++ (toBigEndian32 (value ds)).drop 3))
      else .ok (.inr (false, out)) := by
  have hne : ((value ds : ℕ) : ℤ) ≠ -1 := by omega
  have hlt := (value_lt hds).trans_le (Nat.pow_le_pow_right (by decide) hlen)
  have hcast : toUInt64 (value ds : ℕ) = value ds := toUInt64_natCast (by omega)
  have hlength : (chars ds).length = ds.length := List.length_map _
  rw [decode62Body, decodeBuffer_chars hds (by omega), ok_bind, if_neg hne, hcast, hlength]
  dsimp only
  split_ifs <;> rfl

theorem overGroups_decode62Body {ds : List ℕ} (hds : ∀ d ∈ ds, d < 62) (out : Bytes) :
    ∃ written, overGroups decode62Body (fun out => (true, out)) out (cut 4 (chars ds)) =
      .ok (match reads ds with
        | some w => (true, out ++ w)
        | none => (false, written)) := by
  fun_induction reads ds generalizing out with
  | case1 =>
    refine ⟨[], ?_⟩
    rw [chars, List.map_nil, cut_nil]
    simp [overGroups]
  | case2 d =>
    have hbody := decode62Body_eq hds (by simp) out
    rw [chars, List.map_singleton] at hbody
    refine ⟨out, ?_⟩
    rw [chars, List.map_singleton, cut_last (by simp) (by simp), overGroups, hbody]
    rfl
  | case3 d e =>
    have hbody := decode62Body_eq hds (by simp) out
    refine ⟨[], ?_⟩
    rw [cut_last (by simp [chars]) (by simp [chars]), overGroups, hbody]
    rfl
  | case4 d e f =>
    have hbody := decode62Body_eq hds (by simp) out
    refine ⟨[], ?_⟩
    rw [cut_last (by simp [chars]) (by simp [chars]), overGroups, hbody]
    rfl
  | case5 d e f g rest ih =>
    have hfour : ∀ x ∈ [d, e, f, g], x < 62 := fun x hx => hds x (List.mem_append_left rest hx)
    obtain ⟨written, hrest⟩ := ih (fun x hx => hds x (List.mem_append_right [d, e, f, g] hx))
      (out ++ (toBigEndian32 (value [d, e, f, g])).drop 1)
    have hbody := decode62Body_eq hfour (by simp) out
    have hcut : cut 4 (chars [d, e, f, g] ++ chars rest) = _ := cut_append (by simp [chars]) (.inl rfl)
    refine ⟨written, ?_⟩
    change overGroups _ _ _ (cut 4 (chars [d, e, f, g] ++ chars rest)) = _
    rw [hcut, overGroups, hbody]
    refine hrest.trans ?_
    cases reads rest <;> simp

/-- The octets are fewer than the digits. -/
theorem length_lt_of_reads {ds : List ℕ} {w : Bytes} (h : reads ds = some w) (hne : ds ≠ []) :
    w.length < ds.length := by
  fun_induction reads ds generalizing w with
  | case1 => exact absurd rfl hne
  | case2 => cases h
  | case3 d e =>
    obtain rfl := Option.some.inj h
    simp [toBigEndian32]
  | case4 d e f =>
    obtain rfl := Option.some.inj h
    simp [toBigEndian32]
  | case5 d e f g rest ih =>
    obtain ⟨v, hv, rfl⟩ := Option.map_eq_some_iff.mp h
    by_cases hrest : rest = []
    · subst hrest
      obtain rfl := Option.some.inj hv
      simp [toBigEndian32]
    · have hlt := ih hv hrest
      simp [toBigEndian32]
      omega

theorem length_le_of_reads {ds : List ℕ} {w : Bytes} (h : reads ds = some w) :
    w.length ≤ ds.length := by
  by_cases hne : ds = []
  · subst hne
    obtain rfl := Option.some.inj h
    exact le_rfl
  · exact (length_lt_of_reads h hne).le

theorem toBigEndian32_three (a b c : UInt8) :
    (toBigEndian32 (fromBigEndian [a, b, c])).drop 1 = [a, b, c] := by
  have ha := a.toNat_lt
  have hb := b.toNat_lt
  have hc := c.toNat_lt
  have h1 : UInt8.ofNat (fromBigEndian [a, b, c] / 2 ^ 16) = a := by
    apply UInt8.toNat_inj.mp
    rw [fromBigEndian_three, UInt8.toNat_ofNat']
    omega
  have h2 : UInt8.ofNat (fromBigEndian [a, b, c] / 2 ^ 8) = b := by
    apply UInt8.toNat_inj.mp
    rw [fromBigEndian_three, UInt8.toNat_ofNat']
    omega
  have h3 : UInt8.ofNat (fromBigEndian [a, b, c]) = c := by
    apply UInt8.toNat_inj.mp
    rw [fromBigEndian_three, UInt8.toNat_ofNat']
    omega
  rw [toBigEndian32, h1, h2, h3]
  rfl

theorem fromBigEndian_three_toBigEndian32 {v : ℕ} (h : v < 2 ^ 24) :
    fromBigEndian ((toBigEndian32 v).drop 1) = v := by
  change fromBigEndian [UInt8.ofNat (v / 2 ^ 16), UInt8.ofNat (v / 2 ^ 8), UInt8.ofNat v] = v
  rw [fromBigEndian_three, UInt8.toNat_ofNat', UInt8.toNat_ofNat', UInt8.toNat_ofNat']
  omega

/-- The first four digits say the octets that are read first. -/
theorem value_of_reads {ds : List ℕ} (hds : ∀ d ∈ ds, d < 62) {a b c : UInt8} {u : Bytes}
    (h : reads ds = some (a :: b :: c :: u)) : value (ds.take 4) = fromBigEndian [a, b, c] := by
  match ds, h with
  | [_, _], h => cases h
  | [_, _, _], h => cases h
  | d :: e :: f :: g :: rest, h =>
    obtain ⟨w, -, heq⟩ := Option.map_eq_some_iff.mp h
    have hfour : ∀ x ∈ [d, e, f, g], x < 62 := fun x hx => hds x (List.mem_append_left rest hx)
    have hlt : value [d, e, f, g] < 2 ^ 24 := (value_lt hfour).trans (by norm_num)
    have hdrop : (toBigEndian32 (value [d, e, f, g])).drop 1 = [a, b, c] := by
      simp only [toBigEndian32, List.drop_succ_cons, List.drop_zero, List.cons_append,
        List.nil_append, List.cons.injEq] at heq ⊢
      exact ⟨heq.1, heq.2.1, heq.2.2.1, trivial⟩
    rw [← hdrop, fromBigEndian_three_toBigEndian32 hlt]
    rfl

theorem value_zeros (k : ℕ) : value (List.replicate k 0) = 0 := by
  induction k with
  | zero => rfl
  | succ k ih => rw [List.replicate_succ, value, ih, Nat.zero_mul]

theorem value_pos {d : ℕ} (hd : d ≠ 0) (ds : List ℕ) : 0 < value (d :: ds) := by
  have hpos := Nat.mul_pos (Nat.pos_of_ne_zero hd) (Nat.pow_pos (n := ds.length) (show 0 < 62 by decide))
  rw [value]
  omega

theorem reads_zeros_ne {a z : ℕ} (hz : 1 ≤ z) (haz : a ≤ z) {d : ℕ} {ds : List ℕ} (hd : d ≠ 0)
    (hds : ∀ x ∈ d :: ds, x < 62) (u : Bytes) :
    reads (List.replicate a 0 ++ d :: ds) ≠ some (List.replicate (3 * z) 0 ++ u) := by
  induction a using Nat.strong_induction_on generalizing z with
  | _ a ih =>
    intro h
    obtain ⟨z, rfl⟩ : ∃ k, z = k + 1 := ⟨z - 1, by omega⟩
    have hthree : List.replicate (3 * (z + 1)) (0 : UInt8) ++ u =
        0 :: 0 :: 0 :: (List.replicate (3 * z) 0 ++ u) := rfl
    have hall : ∀ x ∈ List.replicate a 0 ++ d :: ds, x < 62 := by
      intro x hx
      rcases List.mem_append.mp hx with hx | hx
      · rw [List.eq_of_mem_replicate hx]
        decide
      · exact hds x hx
    by_cases ha : a < 4
    · -- the first four digits have the one that is not zero
      rw [hthree] at h
      have hvalue := value_of_reads hall h
      have htake : (List.replicate a 0 ++ d :: ds).take 4 =
          List.replicate a 0 ++ d :: ds.take (3 - a) := by
        rw [List.take_append, List.length_replicate, List.take_of_length_le (by simp; omega),
          show 4 - a = (3 - a) + 1 by omega, List.take_succ_cons]
      rw [htake, value_append, value_zeros, Nat.zero_mul, Nat.zero_add] at hvalue
      have hpos := value_pos hd (ds.take (3 - a))
      rw [hvalue] at hpos
      exact absurd hpos (by decide)
    · obtain ⟨a, rfl⟩ : ∃ k, a = k + 4 := ⟨a - 4, by omega⟩
      have hfour : List.replicate (a + 4) 0 ++ d :: ds =
          0 :: 0 :: 0 :: 0 :: (List.replicate a 0 ++ d :: ds) := rfl
      rw [hthree, hfour] at h
      obtain ⟨w, hw, heq⟩ := Option.map_eq_some_iff.mp h
      have hoctets : (toBigEndian32 (value [0, 0, 0, 0])).drop 1 = [0, 0, 0] := by decide
      rw [hoctets] at heq
      obtain rfl : w = List.replicate (3 * z) 0 ++ u := by simpa using heq
      exact ih a (by omega) (z := z) (by omega) (by omega) hw

theorem fromBigEndian_lt (u : Bytes) : fromBigEndian u < 256 ^ u.length := by
  induction u using List.reverseRecOn with
  | nil => decide
  | append_singleton u b ih =>
    have hb := b.toNat_lt
    have hstep : fromBigEndian (u ++ [b]) = 2 ^ 8 * fromBigEndian u + b.toNat := by
      simp [fromBigEndian]
    rw [hstep, List.length_append, List.length_singleton, pow_succ]
    omega

theorem length_digits62_short {u : Bytes} (h : u.length ≤ 2) :
    (digits62 (fromBigEndian u)).length ≤ u.length + 1 := by
  rw [length_digits62_le (Nat.succ_pos _)]
  refine (fromBigEndian_lt u).trans_le ?_
  have hcases : u.length = 0 ∨ u.length = 1 ∨ u.length = 2 := by omega
  rcases hcases with hlen | hlen | hlen <;> rw [hlen] <;> norm_num

theorem zero_group {a b c : UInt8} (h : fromBigEndian [a, b, c] = 0) : a = 0 ∧ b = 0 ∧ c = 0 := by
  have hgroup : [a, b, c] = [0, 0, 0] := by
    rw [← toBigEndian32_three a b c, h]
    decide
  simpa using hgroup

/-- Groups of zeros are written with one digit each, and this is not made up for later. -/
theorem reads_digitsOf_zeros_ne {a z : ℕ} (hz : 1 ≤ z) (haz : a ≤ z) (u : Bytes) :
    reads (List.replicate a 0 ++ digitsOf u) ≠ some (List.replicate (3 * z) 0 ++ u) := by
  have hshort : ∀ ds : List ℕ, ds.length ≤ u.length + 1 →
      reads (List.replicate a 0 ++ ds) ≠ some (List.replicate (3 * z) 0 ++ u) := by
    intro ds hds h
    have hle := length_le_of_reads h
    simp only [List.length_append, List.length_replicate] at hle
    omega
  fun_induction digitsOf u generalizing a z with
  | case1 => exact hshort [] (by simp)
  | case2 b => exact hshort _ (length_digits62_short (by simp))
  | case3 b c => exact hshort _ (length_digits62_short (by simp))
  | case4 b c d rest ih =>
    by_cases hzero : fromBigEndian [b, c, d] = 0
    · obtain ⟨rfl, rfl, rfl⟩ := zero_group hzero
      have hdigits : List.replicate a 0 ++ (digits62 (fromBigEndian [0, 0, 0]) ++ digitsOf rest) =
          List.replicate (a + 1) 0 ++ digitsOf rest := by
        rw [List.replicate_succ', List.append_assoc]
        rfl
      have hoctets : List.replicate (3 * z) (0 : UInt8) ++ 0 :: 0 :: 0 :: rest =
          List.replicate (3 * (z + 1)) 0 ++ rest := by
        rw [Nat.mul_add, List.replicate_add, List.append_assoc]
        rfl
      rw [hdigits, hoctets]
      apply ih (by omega) (by omega)
      intro ds hds h
      have hle := length_le_of_reads h
      simp only [List.length_append, List.length_replicate] at hle
      omega
    · obtain ⟨e, es, hdigits, he⟩ := head_digits62 hzero
      have hds : ∀ x ∈ e :: (es ++ digitsOf rest), x < 62 := by
        intro x hx
        rw [← List.cons_append, ← hdigits] at hx
        rcases List.mem_append.mp hx with hx | hx
        · exact digits62_lt _ x hx
        · exact digitsOf_lt rest x hx
      rw [hdigits, List.cons_append]
      exact reads_zeros_ne hz haz he hds _

/-- A last group of one or two octets. -/
theorem reads_last_iff {u : Bytes} (hlen : u.length = 1 ∨ u.length = 2) :
    reads (digits62 (fromBigEndian u)) = some u ↔ 62 ^ u.length ≤ fromBigEndian u := by
  have hpos : 0 < u.length := by omega
  have hle := length_digits62_short (u := u) (by omega)
  have hmore := length_digits62_le (n := fromBigEndian u) hpos
  constructor
  · intro h
    have hne : digits62 (fromBigEndian u) ≠ [] :=
      List.ne_nil_of_length_pos (length_digits62_pos _)
    have hlt := length_lt_of_reads h hne
    by_contra hnot
    have := hmore.mpr (by omega)
    omega
  · intro h
    have hdigits : (digits62 (fromBigEndian u)).length = u.length + 1 := by
      have : ¬ (digits62 (fromBigEndian u)).length ≤ u.length := fun hshort => by
        have := hmore.mp hshort
        omega
      omega
    have hvalue := value_digits62 (fromBigEndian u)
    match u, hlen, hdigits with
    | [a], _, hdigits =>
      obtain ⟨x, y, hxy⟩ := List.length_eq_two.mp hdigits
      rw [hxy] at hvalue ⊢
      rw [reads, hvalue, fromBigEndian_one]
      simp [toBigEndian32]
    | [a, b], _, hdigits =>
      obtain ⟨x, y, z, hxyz⟩ := List.length_eq_three.mp hdigits
      have hb := b.toNat_lt
      have hhigh : UInt8.ofNat ((a.toNat * 2 ^ 8 + b.toNat) / 2 ^ 8) = a := by
        apply UInt8.toNat_inj.mp
        have ha := a.toNat_lt
        rw [UInt8.toNat_ofNat']
        omega
      have hlow : UInt8.ofNat (a.toNat * 2 ^ 8 + b.toNat) = b := by
        apply UInt8.toNat_inj.mp
        rw [UInt8.toNat_ofNat']
        omega
      rw [hxyz] at hvalue ⊢
      rw [reads, hvalue, fromBigEndian_two, toBigEndian32, hhigh, hlow]
      rfl

theorem length_digits62_of_reads {n : ℕ} (hn : n ≠ 0) {es : List ℕ} (hes : ∀ x ∈ es, x < 62)
    {a b c : UInt8} {u : Bytes} (hgroup : fromBigEndian [a, b, c] = n)
    (h : reads (digits62 n ++ es) = some (a :: b :: c :: u)) : (digits62 n).length = 4 := by
  have hall : ∀ x ∈ digits62 n ++ es, x < 62 := by
    intro x hx
    rcases List.mem_append.mp hx with hx | hx
    · exact digits62_lt n x hx
    · exact hes x hx
  have hvalue := value_of_reads hall h
  have hdigits := value_digits62 n
  rw [hgroup] at hvalue
  rcases Nat.lt_trichotomy (digits62 n).length 4 with hlt | heq | hgt
  · -- the digits that follow make the number greater
    have hlen := length_lt_of_reads h (by simp [List.ne_nil_of_length_pos (length_digits62_pos n)])
    simp only [List.length_cons, List.length_append] at hlen
    rw [List.take_append, List.take_of_length_le hlt.le, value_append, hdigits] at hvalue
    have hsome : 0 < (es.take (4 - (digits62 n).length)).length := by
      rw [List.length_take]
      omega
    obtain ⟨k, hk⟩ : ∃ k, (es.take (4 - (digits62 n).length)).length = k + 1 :=
      ⟨_, (Nat.succ_pred_eq_of_pos hsome).symm⟩
    have hpow : 62 ≤ 62 ^ (k + 1) := Nat.le_self_pow (by omega) 62
    have hgrow := Nat.mul_le_mul_left n hpow
    rw [hk] at hvalue
    omega
  · exact heq
  · -- a digit that is left out makes it less
    rw [List.take_append_of_le_length hgt.le] at hvalue
    have hsplit := value_append ((digits62 n).take 4) ((digits62 n).drop 4)
    rw [List.take_append_drop, hvalue, hdigits, List.length_drop] at hsplit
    obtain ⟨k, hk⟩ : ∃ k, (digits62 n).length - 4 = k + 1 := ⟨(digits62 n).length - 5, by omega⟩
    have hpow : 62 ≤ 62 ^ (k + 1) := Nat.le_self_pow (by omega) 62
    have hgrow := Nat.mul_le_mul_left n hpow
    rw [hk] at hsplit
    omega

/-- The digits are read as the octets that they are made of exactly when every group has one
digit more than it has octets. -/
theorem reads_digitsOf_iff (u : Bytes) : reads (digitsOf u) = some u ↔ Padless u := by
  fun_induction digitsOf u with
  | case1 => simp [reads, Padless]
  | case2 a =>
    rw [reads_last_iff (.inl rfl), fromBigEndian_one]
    rfl
  | case3 a b =>
    rw [reads_last_iff (.inr rfl)]
    rfl
  | case4 a b c rest ih =>
    have hfour : reads (digits62 (fromBigEndian [a, b, c]) ++ digitsOf rest) = some (a :: b :: c :: rest) ↔
        (digits62 (fromBigEndian [a, b, c])).length = 4 ∧ reads (digitsOf rest) = some rest := by
      have hlast : (digits62 (fromBigEndian [a, b, c])).length = 4 →
          (reads (digits62 (fromBigEndian [a, b, c]) ++ digitsOf rest) = some (a :: b :: c :: rest) ↔
            reads (digitsOf rest) = some rest) := by
        intro hlen
        obtain ⟨d, e, f, g, hdigits⟩ := List.length_eq_four.mp hlen
        have hvalue := value_digits62 (fromBigEndian [a, b, c])
        rw [hdigits] at hvalue ⊢
        change (reads (digitsOf rest)).map _ = _ ↔ _
        rw [hvalue, toBigEndian32_three]
        cases reads (digitsOf rest) <;> simp
      constructor
      · intro h
        have hne : fromBigEndian [a, b, c] ≠ 0 := by
          intro hzero
          obtain ⟨rfl, rfl, rfl⟩ := zero_group hzero
          exact reads_digitsOf_zeros_ne (z := 1) le_rfl le_rfl rest h
        have hlen := length_digits62_of_reads hne (digitsOf_lt rest) rfl h
        exact ⟨hlen, (hlast hlen).mp h⟩
      · rintro ⟨hlen, hrest⟩
        exact (hlast hlen).mpr hrest
    have hlow := length_digits62_le (n := fromBigEndian [a, b, c]) (show 0 < 3 by decide)
    have hhigh := length_digits62_le (n := fromBigEndian [a, b, c]) (show 0 < 4 by decide)
    rw [hfour, ih, Padless]
    apply and_congr_left'
    omega

/-- The text of a number is read as the number exactly when it is an `int`. -/
theorem decodeBuffer_encodeInteger_iff {n : ℕ} (hn : n < 2 ^ 63) :
    (∃ text, encodeInteger n = .ok text ∧ decodeBuffer text = .ok n) ↔ n < 2 ^ 31 := by
  have hread : ∀ k < 2 ^ 31, decodeBuffer (chars (digits62 k)) = .ok k := by
    intro k hk
    have hlen := (@length_digits62_le k 10 (by decide)).mpr (hk.trans (by norm_num))
    rw [decodeBuffer_chars (digits62_lt k) hlen, value_digits62]
  constructor
  · rintro ⟨text, hencode, hdecode⟩
    by_contra hbig
    rcases encodeInteger_big (not_lt.mp hbig) with ⟨k, hk, hother⟩ | ⟨fault, hfault⟩
    · obtain rfl := Except.ok.inj (hother.symm.trans hencode)
      rw [hread k hk] at hdecode
      have heq := Except.ok.inj hdecode
      omega
    · cases hfault.symm.trans hencode
  · intro hsmall
    exact ⟨_, encodeInteger_eq hsmall, hread n hsmall⟩

/-- What `decodeBase62` makes of the text that `encodeBase62` writes. -/
theorem decodeBase62_chars_iff {τ : Type} [InputStream τ] {Holds : τ → Bytes → Prop} (h : Fills Holds)
    {ds : List ℕ} (hds : ∀ d ∈ ds, d < 62) {input : τ} (hinput : Holds input (chars ds)) (b : Bytes) :
    decodeBase62 input = .ok (true, b) ↔ reads ds = some b := by
  obtain ⟨written, hdecode⟩ := overGroups_decode62Body hds []
  rw [decodeBase62, h.groupLoop_eq hinput (by decide), hdecode]
  cases reads ds <;> simp

/-- Both round trips, over sources that fill their reads, where `f` opens a text: octets come back
exactly when every group has one digit more than octets, and numbers exactly when they are an `int`. -/
theorem roundTrip_iff {σ τ : Type} [InputStream σ] [InputStream τ] {Holds : σ → Bytes → Prop}
    {Holds' : τ → Bytes → Prop} (h : Fills Holds) (h' : Fills Holds') (f : Bytes → τ)
    (hf : ∀ u, Holds' (f u) u) {input : σ} {b : Bytes} (hb : Holds input b) {n : ℕ}
    (hn : n < 2 ^ 63) :
    ((∃ text, encodeBase62 input = .ok text ∧ decodeBase62 (f text) = .ok (true, b)) ∧
        ∃ text, encodeInteger n = .ok text ∧ decodeBuffer text = .ok n) ↔
      Padless b ∧ n < 2 ^ 31 := by
  rw [decodeBuffer_encodeInteger_iff hn, ← reads_digitsOf_iff, encodeBase62_eq h hb]
  apply and_congr_left'
  constructor
  · rintro ⟨text, htext, hdecode⟩
    obtain rfl := Except.ok.inj htext
    exact (decodeBase62_chars_iff h' (digitsOf_lt b) (hf _) b).mp hdecode
  · intro hreads
    exact ⟨_, rfl, (decodeBase62_chars_iff h' (digitsOf_lt b) (hf _) b).mpr hreads⟩

theorem roundTrip_iff_sese :
    ((∃ text, encodeBase62 (InputBufferWrapper.mk (bytes "sese") 0) = .ok text ∧
          decodeBase62 (InputBufferWrapper.mk text 0) = .ok (true, bytes "sese")) ∧
        ∃ text, encodeInteger 7562611 = .ok text ∧ decodeBuffer text = .ok (7562611 : ℕ)) ↔
      Padless (bytes "sese") ∧ 7562611 < 2 ^ 31 :=
  roundTrip_iff InputBufferWrapper.fills InputBufferWrapper.fills
    (fun text => InputBufferWrapper.mk text 0) (fun _ => rfl) rfl (by decide)

/-- An octet that is a single digit is lost. -/
theorem decodeBase62_single :
    ¬ ∃ text, encodeBase62 (InputBufferWrapper.mk [7] 0) = .ok text ∧
      decodeBase62 (InputBufferWrapper.mk text 0) = .ok (true, [7]) := by
  have hencode : encodeBase62 (InputBufferWrapper.mk [7] 0) = .ok (bytes "H") := by decide +kernel
  have hdecode : decodeBase62 (InputBufferWrapper.mk (bytes "H") 0) = .ok (false, []) := by
    decide +kernel
  rintro ⟨text, htext, hback⟩
  obtain rfl := Except.ok.inj (hencode.symm.trans htext)
  cases hdecode.symm.trans hback

end Sese.Base64Converter
