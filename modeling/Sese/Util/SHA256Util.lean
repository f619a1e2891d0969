import Sese.Util.Bitset32
import Sese.Util.DigestPadding

/-!
# SHA-256

`SHA256Util`. The message schedule is written behind the block into one buffer of 256 octets, which
keeps the last block until the next octets are read over it. The tail of the message is filled up in
this buffer. When it has 48 to 55 octets the number of zeros is negative, which `memset` takes for a
size of nearly `2 ^ 64`; when it has 45 to 47 the zeros do not reach the length, and what stands
between is left from the block before.
-/
namespace Sese
namespace SHA256Util

open Foundation

def K : List Bitset32 :=
  ([0x428A_2F98, 0x7137_4491, 0xB5C0_FBCF, 0xE9B5_DBA5, 0x3956_C25B, 0x59F1_11F1, 0x923F_82A4,
    0xAB1C_5ED5, 0xD807_AA98, 0x1283_5B01, 0x2431_85BE, 0x550C_7DC3, 0x72BE_5D74, 0x80DE_B1FE,
    0x9BDC_06A7, 0xC19B_F174, 0xE49B_69C1, 0xEFBE_4786, 0x0FC1_9DC6, 0x240C_A1CC, 0x2DE9_2C6F,
    0x4A74_84AA, 0x5CB0_A9DC, 0x76F9_88DA, 0x983E_5152, 0xA831_C66D, 0xB003_27C8, 0xBF59_7FC7,
    0xC6E0_0BF3, 0xD5A7_9147, 0x06CA_6351, 0x1429_2967, 0x27B7_0A85, 0x2E1B_2138, 0x4D2C_6DFC,
    0x5338_0D13, 0x650A_7354, 0x766A_0ABB, 0x81C2_C92E, 0x9272_2C85, 0xA2BF_E8A1, 0xA81A_664B,
    0xC24B_8B70, 0xC76C_51A3, 0xD192_E819, 0xD699_0624, 0xF40E_3585, 0x106A_A070, 0x19A4_C116,
    0x1E37_6C08, 0x2748_774C, 0x34B0_BCB5, 0x391C_0CB3, 0x4ED8_AA4A, 0x5B9C_CA4F, 0x682E_6FF3,
    0x748F_82EE, 0x78A5_636F, 0x84C8_7814, 0x8CC7_0208, 0x90BE_FFFA, 0xA450_6CEB, 0xBEF9_A3F7,
    0xC671_78F2] : List (BitVec 32)).map
    Bitset32.ofUInt32

/-- Eight words: `hash` and `value` in the source. -/
structure Value where
  (a b c d e f g h : Bitset32)

def initialHash : Value :=
  ⟨.ofUInt32 0x6A09_E667, .ofUInt32 0xBB67_AE85, .ofUInt32 0x3C6E_F372, .ofUInt32 0xA54F_F53A,
    .ofUInt32 0x510E_527F, .ofUInt32 0x9B05_688C, .ofUInt32 0x1F83_D9AB, .ofUInt32 0x5BE0_CD19⟩

/-- `buffer[i]`. -/
def wordOf (buffer : Bytes) (i : ℕ) : Bitset32 :=
  ⟨buffer.getD (4 * i) 0, buffer.getD (4 * i + 1) 0, buffer.getD (4 * i + 2) 0,
    buffer.getD (4 * i + 3) 0⟩

def octets (b : Bitset32) : Bytes := [b.byte0, b.byte1, b.byte2, b.byte3]

/-- `structure(buffer + i)`. -/
def structureAt (buffer : Bytes) (i : ℕ) : Except Fault Bytes :=
  let p0 := wordOf buffer i
  let p1 := wordOf buffer (i + 1)
  let p2 := wordOf buffer (i + 9)
  let p3 := wordOf buffer (i + 14)
  let tmp0 := p1.rightRotate7 ^^^ p1.rightRotate18 ^^^ p1.rightShift3
  let tmp1 := p3.rightRotate17 ^^^ p3.rightRotate19 ^^^ p3.rightShift10
  store buffer (4 * (i + 16)) (octets (p0 + tmp0 + p2 + tmp1))

/-- The `encode` of one round. -/
def encodeRound (value : Value) (buffer k : Bitset32) : Value :=
  let choice := (value.e &&& value.f) ^^^ (~~~value.e &&& value.g)
  let majority := (value.a &&& value.b) ^^^ (value.a &&& value.c) ^^^ (value.b &&& value.c)
  let sigma0 := value.a.rightRotate2 ^^^ value.a.rightRotate13 ^^^ value.a.rightRotate22
  let sigma1 := value.e.rightRotate6 ^^^ value.e.rightRotate11 ^^^ value.e.rightRotate25
  let tmp1 := value.h + sigma1 + choice + k + buffer
  let tmp2 := sigma0 + majority
  ⟨tmp1 + tmp2, value.a, value.b, value.c, value.d + tmp1, value.e, value.f, value.g⟩

/-- What is done with every block: the schedule, the rounds, and the sum. -/
def compress (hash : Value) (buffer : Bytes) : Except Fault (Value × Bytes) := do
  let buffer ← (List.range 48).foldlM structureAt buffer
  let value := (List.range 64).foldl
    (fun value i => encodeRound value (wordOf buffer i) (K.getD i (.ofUInt32 0))) hash
  return (⟨hash.a + value.a, hash.b + value.b, hash.c + value.c, hash.d + value.d, hash.e + value.e,
    hash.f + value.f, hash.g + value.g, hash.h + value.h⟩, buffer)

/-- The local variables of `encode`. -/
structure State where
  hash : Value
  buffer : Bytes
  total : ℕ

/-- The tail, of which `size` octets have been read into the buffer. -/
def finishTail (s : State) (size : ℕ) : Except Fault State := do
  let total := (s.total + size) % 2 ^ 64 * 8 % 2 ^ 64
  if size ≤ 55 then
    let buffer ← memset s.buffer (size + 1) 0 (toUInt64 (4 * (47 - size)))
    let buffer ← store buffer size [0x80]
    let buffer ← store buffer 56 (toBigEndian64 total)
    let (hash, buffer) ← compress s.hash buffer
    return ⟨hash, buffer, total⟩
  else
    let buffer ← store s.buffer size [0x80]
    let buffer ← memset buffer (size + 1) 0 (63 - size)
    let (hash, buffer) ← compress s.hash buffer
    let buffer ← memset buffer 0 0 56
    let buffer ← store buffer 56 (toBigEndian64 total)
    let (hash, buffer) ← compress hash buffer
    return ⟨hash, buffer, total⟩

/-- The loop of `encode` and what is behind it; every `read` fills the 64 octets as long as there are
so many. -/
def encodeLoop (s : State) (input : Bytes) : Except Fault State := do
  let buffer ← store s.buffer 0 (input.take 64)
  if _h : (input.take 64).length = 64 then
    let (hash, buffer) ← compress s.hash buffer
    encodeLoop ⟨hash, buffer, (s.total + 64) % 2 ^ 64⟩ (input.drop 64)
  else finishTail { s with buffer := buffer } (input.take 64).length
termination_by input.length
decreasing_by
  simp at _h ⊢
  omega

def encode (input : Bytes) : Except Fault Bytes := do
  let s ← encodeLoop ⟨initialHash, List.replicate 256 0, 0⟩ input
  return [s.hash.a, s.hash.b, s.hash.c, s.hash.d, s.hash.e, s.hash.f, s.hash.g,
    s.hash.h].flatMap octets

open SecureHash (Word)

variable {buffer : Bytes} {m : ℕ → Word}

theorem getD_overwrite {pos : ℕ} {src : Bytes} (h : pos ≤ buffer.length) (k : ℕ) :
    (overwrite buffer pos src).getD k 0 = if k < pos then buffer.getD k 0
      else if k < pos + src.length then src.getD (k - pos) 0 else buffer.getD k 0 := by
  simp only [List.getD_eq_getElem?_getD, getElem?_overwrite h]
  split_ifs <;> simp

theorem wordOf_overwrite_self {i : ℕ} (h : 4 * i ≤ buffer.length) (w : Bitset32) :
    wordOf (overwrite buffer (4 * i) (octets w)) i = w := by
  have hget : ∀ k < 4, (overwrite buffer (4 * i) (octets w)).getD (4 * i + k) 0 =
      (octets w).getD k 0 := by
    intro k hk
    rw [getD_overwrite h, if_neg (by omega), if_pos (by simp [octets, hk]), Nat.add_sub_cancel_left]
  have h0 := hget 0 (by decide)
  rw [Nat.add_zero] at h0
  simp only [wordOf, h0, hget 1 (by decide), hget 2 (by decide), hget 3 (by decide)]
  simp [octets]

theorem wordOf_overwrite_ne {i j : ℕ} (h : 4 * i ≤ buffer.length) (hne : j ≠ i) (w : Bitset32) :
    wordOf (overwrite buffer (4 * i) (octets w)) j = wordOf buffer j := by
  have hget : ∀ k < 4, (overwrite buffer (4 * i) (octets w)).getD (4 * j + k) 0 =
      buffer.getD (4 * j + k) 0 := by
    intro k hk
    have hlength : (octets w).length = 4 := by simp [octets]
    rw [getD_overwrite h, hlength]
    split_ifs <;> first | rfl | omega
  have h0 := hget 0 (by decide)
  rw [Nat.add_zero] at h0
  simp only [wordOf, h0, hget 1 (by decide), hget 2 (by decide), hget 3 (by decide)]

/-- The block stands in the buffer, and `n` words of the schedule behind it. -/
structure Expanded (block : Bytes) (n : ℕ) (buffer : Bytes) : Prop where
  length : buffer.length = 256
  kept : buffer.take 64 = block
  words : ∀ i < 16 + n, (wordOf buffer i).get =
    SecureHash.Sha256.schedule (SecureHash.wordAt block) i

theorem wordOf_get {i : ℕ} (h : i < 16) :
    (wordOf buffer i).get = SecureHash.wordAt (buffer.take 64) i := by
  have htake : ∀ k < 64, (buffer.take 64).getD k 0 = buffer.getD k 0 := by
    intro k hk
    simp only [List.getD_eq_getElem?_getD, List.getElem?_take_of_lt hk]
  unfold SecureHash.wordAt
  rw [htake _ (by omega), htake _ (by omega), htake _ (by omega), htake _ (by omega)]
  rfl

theorem expanded_start (h : buffer.length = 256) : Expanded (buffer.take 64) 0 buffer where
  length := h
  kept := rfl
  words := by
    intro i hi
    rw [wordOf_get hi, SecureHash.Sha256.schedule_start _ hi]

theorem Expanded.structureAt {block : Bytes} {n : ℕ} (h : Expanded block n buffer) (hn : n < 48) :
    ∃ buffer', SHA256Util.structureAt buffer n = .ok buffer' ∧ Expanded block (n + 1) buffer' := by
  have hlength := h.length
  unfold SHA256Util.structureAt
  dsimp only
  generalize hw : wordOf buffer n + _ + wordOf buffer (n + 9) + _ = w
  have hfits : 4 * (n + 16) + (octets w).length ≤ buffer.length := by
    simp only [octets, List.length_cons, List.length_nil]
    omega
  rw [store, if_pos hfits]
  refine ⟨_, rfl, ⟨by rw [length_overwrite hfits, hlength], ?_, ?_⟩⟩
  · rw [take_overwrite (by omega) (by omega), h.kept]
  · intro i hi
    by_cases hlast : i = n + 16
    · subst hlast
      rw [wordOf_overwrite_self (by omega), ← hw,
        SecureHash.Sha256.schedule_step _ (by omega : 16 ≤ n + 16)]
      simp only [Bitset32.get_add, Bitset32.get_xor, Bitset32.get_rightRotate7,
        Bitset32.get_rightRotate18, Bitset32.get_rightShift3, Bitset32.get_rightRotate17,
        Bitset32.get_rightRotate19, Bitset32.get_rightShift10, h.words n (by omega),
        h.words (n + 1) (by omega), h.words (n + 9) (by omega), h.words (n + 14) (by omega)]
      have h2 : n + 16 - 2 = n + 14 := by omega
      have h7 : n + 16 - 7 = n + 9 := by omega
      have h15 : n + 16 - 15 = n + 1 := by omega
      simp only [h2, h7, h15, Nat.add_sub_cancel, SecureHash.Sha256.smallSigma0,
        SecureHash.Sha256.smallSigma1]
      ac_rfl
    · rw [wordOf_overwrite_ne (by omega) hlast]
      exact h.words i (by omega)

theorem expanded_foldlM {block : Bytes} (h : Expanded block 0 buffer) {n : ℕ} (hn : n ≤ 48) :
    ∃ buffer', (List.range n).foldlM SHA256Util.structureAt buffer = .ok buffer' ∧
      Expanded block n buffer' := by
  induction n with
  | zero => exact ⟨buffer, rfl, h⟩
  | succ n ih =>
    obtain ⟨middle, hmiddle, hexpanded⟩ := ih (by omega)
    obtain ⟨buffer', hlast, hnext⟩ := hexpanded.structureAt (by omega)
    refine ⟨buffer', ?_, hnext⟩
    rw [List.range_succ, List.foldlM_append, hmiddle, ok_bind, List.foldlM_cons, hlast, ok_bind,
      List.foldlM_nil, pure_eq_ok]

def Value.chain (v : Value) : SecureHash.Sha256.Chain :=
  ⟨v.a.get, v.b.get, v.c.get, v.d.get, v.e.get, v.f.get, v.g.get, v.h.get⟩

theorem get_K : ∀ t < 64, (K.getD t (.ofUInt32 0)).get = SecureHash.Sha256.k t := by
  decide +kernel

theorem initialHash_chain : initialHash.chain = SecureHash.Sha256.init := by
  decide +kernel

theorem encodeRound_chain (v : Value) (w k : Bitset32) {t : ℕ} (hk : k.get = SecureHash.Sha256.k t) :
    (encodeRound v w k).chain = SecureHash.Sha256.round v.chain t w.get := by
  simp only [encodeRound, Value.chain, SecureHash.Sha256.round, SecureHash.Sha256.bigSigma0,
    SecureHash.Sha256.bigSigma1, SecureHash.ch, SecureHash.maj, Bitset32.get_add,
    Bitset32.get_xor, Bitset32.get_and, Bitset32.get_not, Bitset32.get_rightRotate2,
    Bitset32.get_rightRotate6, Bitset32.get_rightRotate11, Bitset32.get_rightRotate13,
    Bitset32.get_rightRotate22, Bitset32.get_rightRotate25, hk]

theorem rounds_chain {block : Bytes} (h : Expanded block 48 buffer) (v : Value) {n : ℕ}
    (hn : n ≤ 64) :
    ((List.range n).foldl
        (fun value i => encodeRound value (wordOf buffer i) (K.getD i (.ofUInt32 0))) v).chain =
      SecureHash.Sha256.rounds (SecureHash.wordAt block) v.chain n := by
  induction n with
  | zero => rfl
  | succ n ih =>
    rw [List.range_succ, List.foldl_append, List.foldl_cons, List.foldl_nil,
      encodeRound_chain _ _ _ (get_K n (by omega)), ih (by omega), h.words n (by omega),
      SecureHash.Sha256.rounds_succ]

theorem compress_chain (hash : Value) (h : buffer.length = 256) :
    ∃ v buffer', compress hash buffer = .ok (v, buffer') ∧
      v.chain = SecureHash.Sha256.compress hash.chain (buffer.take 64) ∧
      buffer'.length = 256 ∧ buffer'.take 64 = buffer.take 64 := by
  obtain ⟨buffer', hfold, hexpanded⟩ := expanded_foldlM (expanded_start h) le_rfl
  have hrounds := rounds_chain hexpanded hash le_rfl
  unfold compress
  rw [hfold, ok_bind]
  refine ⟨_, buffer', pure_eq_ok _, ?_, hexpanded.length, hexpanded.kept⟩
  unfold SecureHash.Sha256.compress
  rw [← hrounds]
  simp only [Value.chain, Bitset32.get_add]

theorem octets_eq (b : Bitset32) : octets b = SecureHash.octets b.get := by
  simp [octets, Bitset32.get]

/-- What the zeros leave of the block before, up to the length. -/
def leftOver (last rest : Bytes) : Bytes :=
  (last.drop (rest.length + 1 + 4 * (47 - rest.length))).take
    (55 - rest.length - 4 * (47 - rest.length))

/-- The block that the code makes of a tail of at most 47 octets. -/
def filled (last rest : Bytes) (total : ℕ) : Bytes :=
  rest ++ 0x80 :: (List.replicate (min (4 * (47 - rest.length)) (55 - rest.length)) 0 ++
    (leftOver last rest ++ SecureHash.octets64 (8 * total)))

variable {s : State} {rest last more : Bytes} {total : ℕ}

theorem store_length (n : ℕ) (h : buffer.length = 256) :
    ∃ buffer', store buffer 56 (toBigEndian64 n) = .ok buffer' ∧ buffer'.length = 256 ∧
      buffer'.take 64 = buffer.take 56 ++ toBigEndian64 n := by
  have hoctets := length_toBigEndian64 n
  have hfits : 56 + (toBigEndian64 n).length ≤ buffer.length := by omega
  refine ⟨overwrite buffer 56 (toBigEndian64 n), by rw [store, if_pos hfits],
    by rw [length_overwrite hfits, h], take_overwrite_add (by omega) (by omega)⟩

theorem total_bits (htotal : s.total + rest.length = total) (hfits : total < 2 ^ 61) :
    toBigEndian64 ((s.total + rest.length) % 2 ^ 64 * 8 % 2 ^ 64) =
      SecureHash.octets64 (8 * total) := by
  have hmod : (s.total + rest.length) % 2 ^ 64 = total := by omega
  rw [hmod, toBigEndian64_eq hfits]

theorem take_filled (hlast : last.length = 64) (hrest : rest.length ≤ 47) :
    (rest ++ 0x80 :: (List.replicate (4 * (47 - rest.length)) 0 ++
        (last.drop rest.length ++ more).drop (4 * (47 - rest.length) + 1))).take 56 ++
      SecureHash.octets64 (8 * total) = filled last rest total := by
  have hleft : ((last.drop rest.length ++ more).drop (4 * (47 - rest.length) + 1)).take
      (55 - rest.length - 4 * (47 - rest.length)) = leftOver last rest := by
    unfold leftOver
    by_cases hnone : 55 - rest.length - 4 * (47 - rest.length) = 0
    · rw [hnone, List.take_zero, List.take_zero]
    · have hsum : rest.length + (4 * (47 - rest.length) + 1) =
          rest.length + 1 + 4 * (47 - rest.length) := by omega
      rw [List.drop_append_of_le_length (by simp [hlast]; omega),
        List.take_append_of_le_length (by simp [hlast]; omega), List.drop_drop, hsum]
  have hroom : 56 - rest.length = (55 - rest.length) + 1 := by omega
  unfold filled
  rw [List.take_append, List.take_of_length_le (by omega), hroom, List.take_succ_cons,
    List.take_append, List.length_replicate, List.take_replicate, hleft, Nat.min_comm]
  simp

theorem finishTail_short (hbuffer : s.buffer = rest ++ (last.drop rest.length ++ more))
    (hlast : last.length = 64) (hmore : more.length = 192) (hrest : rest.length ≤ 47)
    (htotal : s.total + rest.length = total) (hfits : total < 2 ^ 61) :
    ∃ s', finishTail s rest.length = .ok s' ∧ s'.hash.chain =
      SecureHash.Sha256.compress s.hash.chain (filled last rest total) := by
  have hcount : toUInt64 (4 * (47 - rest.length)) = 4 * (47 - rest.length) := by
    unfold toUInt64
    omega
  have hold : (last.drop rest.length ++ more).length = 256 - rest.length := by
    simp [hlast, hmore]
    omega
  have hwritten : (rest ++ 0x80 :: (List.replicate (4 * (47 - rest.length)) 0 ++
      (last.drop rest.length ++ more).drop (4 * (47 - rest.length) + 1))).length = 256 := by
    simp [hlast, hmore]
    omega
  obtain ⟨buffer₁, hstore, hlength, htake⟩ := store_length
    ((s.total + rest.length) % 2 ^ 64 * 8 % 2 ^ 64) hwritten
  obtain ⟨v, buffer₂, hcompress, hchain, -⟩ := compress_chain s.hash hlength
  rw [htake, total_bits htotal hfits, take_filled hlast hrest] at hchain
  unfold finishTail
  rw [if_pos (by omega), hcount, hbuffer, ← bind_assoc, memset_one (by omega), ok_bind, hstore,
    ok_bind, hcompress, ok_bind]
  exact ⟨_, pure_eq_ok _, hchain⟩

theorem finishTail_overflow (hbuffer : s.buffer.length = 256) {size : ℕ} (hlow : 48 ≤ size)
    (hhigh : size ≤ 55) : finishTail s size = .error .overflow := by
  have hcount : toUInt64 (4 * (47 - size)) = 2 ^ 64 - 4 * (size - 47) := by
    unfold toUInt64
    omega
  unfold finishTail
  rw [if_pos hhigh, memset, hcount, if_neg (by omega), error_bind]

/-- A longer tail, whose length gets a block of its own. -/
theorem finishTail_long (hbuffer : s.buffer = rest ++ (last.drop rest.length ++ more))
    (hlast : last.length = 64) (hmore : more.length = 192) (hlow : 55 < rest.length)
    (hhigh : rest.length < 64) (htotal : s.total + rest.length = total) (hfits : total < 2 ^ 61)
    (hmod : total % 64 = rest.length) :
    ∃ s', finishTail s rest.length = .ok s' ∧ s'.hash.chain =
      SecureHash.finish SecureHash.Sha256.compress s.hash.chain total rest := by
  have hold : (last.drop rest.length ++ more).drop (63 - rest.length + 1) = more := by
    have hdrop : 63 - rest.length + 1 = (last.drop rest.length).length := by
      simp [hlast]
      omega
    rw [hdrop, List.drop_left]
  have hroom : (last.drop rest.length ++ more).length = 256 - rest.length := by
    simp [hlast, hmore]
    omega
  have hfirst : (rest ++ 0x80 :: (List.replicate (63 - rest.length) 0 ++ more)).length = 256 := by
    simp [hmore]
    omega
  have htake : (rest ++ 0x80 :: (List.replicate (63 - rest.length) 0 ++ more)).take 64 =
      rest ++ 0x80 :: List.replicate (63 - rest.length) 0 := by
    have hblock : (rest ++ 0x80 :: List.replicate (63 - rest.length) 0).length = 64 := by
      simp
      omega
    have hsplit : rest ++ 0x80 :: (List.replicate (63 - rest.length) 0 ++ more) =
        (rest ++ 0x80 :: List.replicate (63 - rest.length) 0) ++ more := by simp
    rw [hsplit, ← hblock, List.take_left]
  obtain ⟨v₁, buffer₁, hcompress₁, hchain₁, hlength₁, -⟩ := compress_chain s.hash hfirst
  rw [htake] at hchain₁
  have hclear : memset buffer₁ 0 0 56 = .ok (List.replicate 56 0 ++ buffer₁.drop 56) := by
    rw [memset_eq_store, store_front (by simp [hlength₁]), List.length_replicate]
  have hcleared : (List.replicate 56 0 ++ buffer₁.drop 56).length = 256 := by simp [hlength₁]
  obtain ⟨buffer₂, hstore, hlength₂, htake₂⟩ := store_length
    ((s.total + rest.length) % 2 ^ 64 * 8 % 2 ^ 64) hcleared
  obtain ⟨v₂, buffer₃, hcompress₂, hchain₂, -⟩ := compress_chain v₁ hlength₂
  have hzeros : (List.replicate 56 (0 : UInt8) ++ buffer₁.drop 56).take 56 = List.replicate 56 0 := by
    rw [List.take_left' (by simp)]
  rw [htake₂, hzeros, total_bits htotal hfits, hchain₁,
    ← SecureHash.finish_two SecureHash.Sha256.compress s.hash.chain hmod hlow] at hchain₂
  unfold finishTail
  rw [if_neg (by omega), hbuffer, store_one (by omega), ok_bind, memset_zeros (by omega), ok_bind,
    hold, hcompress₁, ok_bind]
  dsimp only
  rw [hclear, ok_bind, hstore, ok_bind, hcompress₂, ok_bind]
  exact ⟨_, pure_eq_ok _, hchain₂⟩

/-- The block before the tail, or what the buffer holds at first. -/
def lastBlock (first input : Bytes) : Bytes :=
  if 64 ≤ input.length then (input.drop (64 * (input.length / 64 - 1))).take 64 else first

theorem lastBlock_block (first : Bytes) {input : Bytes} (h : 64 ≤ input.length) :
    lastBlock (input.take 64) (input.drop 64) = lastBlock first input := by
  unfold lastBlock
  rw [if_pos h, List.length_drop]
  split_ifs with hmore
  · rw [List.drop_drop]
    congr 2
    omega
  · have hone : 64 * (input.length / 64 - 1) = 0 := by omega
    rw [hone, List.drop_zero]

theorem length_lastBlock {first : Bytes} (h : first.length = 64) (input : Bytes) :
    (lastBlock first input).length = 64 := by
  unfold lastBlock
  split_ifs
  · simp
    omega
  · exact h

/-- What is found when the whole blocks have been read. -/
structure Rest (s s' : State) (input : Bytes) : Prop where
  chain : s'.hash.chain =
    (SecureHash.blocks input).foldl SecureHash.Sha256.compress s.hash.chain
  buffer : ∃ more : Bytes, more.length = 192 ∧ s'.buffer = SecureHash.tail input ++
    ((lastBlock (s.buffer.take 64) input).drop (SecureHash.tail input).length ++ more)
  total : s'.total + (SecureHash.tail input).length = s.total + input.length

theorem encodeLoop_rest {s : State} {input : Bytes} (hbuffer : s.buffer.length = 256)
    (hfits : s.total + input.length < 2 ^ 61) :
    ∃ s', encodeLoop s input = finishTail s' (SecureHash.tail input).length ∧ Rest s s' input := by
  induction hn : input.length using Nat.strongRecOn generalizing s input with
  | ind n ih =>
    rw [encodeLoop, store_front (by simp [hbuffer]), ok_bind]
    by_cases hfull : 64 ≤ input.length
    · have htake : (input.take 64).length = 64 := by simp [hfull]
      have hlength : (input.take 64 ++ s.buffer.drop (input.take 64).length).length = 256 := by
        simp [hbuffer, hfull]
      have hblock : (input.take 64 ++ s.buffer.drop (input.take 64).length).take 64 =
          input.take 64 := List.take_left' htake
      obtain ⟨v, buffer, hcompress, hchain, hlength', hkept⟩ := compress_chain s.hash hlength
      rw [hblock] at hchain hkept
      rw [dif_pos htake, hcompress, ok_bind]
      have hdrop : (input.drop 64).length = input.length - 64 := by simp
      have hmod : (s.total + 64) % 2 ^ 64 = s.total + 64 := by omega
      have hloop : ∃ s', encodeLoop ⟨v, buffer, (s.total + 64) % 2 ^ 64⟩ (input.drop 64) =
          finishTail s' (SecureHash.tail (input.drop 64)).length ∧
          Rest ⟨v, buffer, (s.total + 64) % 2 ^ 64⟩ s' (input.drop 64) :=
        ih _ (by omega) hlength' (by dsimp only; omega) rfl
      obtain ⟨s', hs', hrest⟩ := hloop
      have htail := SecureHash.tail_block hfull
      refine ⟨s', by rw [← htail]; exact hs', ?_, ?_, ?_⟩
      · rw [hrest.chain, SecureHash.blocks_block hfull, List.foldl_cons, ← hchain]
      · have hkeeps := hrest.buffer
        dsimp only at hkeeps
        rwa [hkept, htail, lastBlock_block (s.buffer.take 64) hfull] at hkeeps
      · have htotal := hrest.total
        dsimp only at htotal
        rw [htail] at htotal
        omega
    · have htake : input.take 64 = input := List.take_of_length_le (by omega)
      have htail := SecureHash.tail_short (Nat.not_le.mp hfull)
      rw [htake, dif_neg (by omega), htail]
      refine ⟨_, rfl, ?_, ⟨s.buffer.drop 64, by simp [hbuffer], ?_⟩, by rw [htail]⟩
      · rw [SecureHash.blocks_short (Nat.not_le.mp hfull), List.foldl_nil]
      · rw [htail, lastBlock, if_neg hfull]
        have hdrop : s.buffer.drop input.length =
            (s.buffer.take 64).drop input.length ++ s.buffer.drop 64 := by
          conv_lhs => rw [← List.take_append_drop 64 s.buffer]
          rw [List.drop_append_of_le_length (by simp [hbuffer]; omega)]
        rw [hdrop]

/-- What the block before leaves between the zeros and the length. -/
def stale (input : Bytes) : Bytes :=
  leftOver (lastBlock (List.replicate 64 0) input) (SecureHash.tail input)

def properBlock (rest : Bytes) (total : ℕ) : Bytes :=
  rest ++ 0x80 :: (List.replicate (55 - rest.length) 0 ++ SecureHash.octets64 (8 * total))

def chainBefore (input : Bytes) : SecureHash.Sha256.Chain :=
  (SecureHash.blocks input).foldl SecureHash.Sha256.compress SecureHash.Sha256.init

/-- The last block is not the one of the standard, and is compressed into the same chaining value. -/
def Collides (input : Bytes) : Prop :=
  let rest := SecureHash.tail input
  let written := filled (lastBlock (List.replicate 64 0) input) rest input.length
  written ≠ properBlock rest input.length ∧
    SecureHash.Sha256.compress (chainBefore input) written =
      SecureHash.Sha256.compress (chainBefore input) (properBlock rest input.length)

theorem length_leftOver (hlast : last.length = 64) :
    (leftOver last rest).length = 55 - rest.length - 4 * (47 - rest.length) := by
  simp [leftOver, hlast]
  omega

theorem filled_eq_properBlock (hlast : last.length = 64) :
    filled last rest total = properBlock rest total ↔ ∀ b ∈ leftOver last rest, b = 0 := by
  have hzeros : List.replicate (55 - rest.length) (0 : UInt8) =
      List.replicate (min (4 * (47 - rest.length)) (55 - rest.length)) 0 ++
        List.replicate (leftOver last rest).length 0 := by
    rw [List.replicate_append_replicate, length_leftOver hlast]
    congr 1
    omega
  unfold filled properBlock
  rw [hzeros, List.append_assoc, List.append_right_inj, List.cons_inj_right, List.append_right_inj,
    List.append_left_inj, List.eq_replicate_iff]
  simp

theorem result_octets (v : Value) :
    [v.a, v.b, v.c, v.d, v.e, v.f, v.g, v.h].flatMap octets = v.chain.octets := by
  simp [octets_eq, Value.chain, SecureHash.Sha256.Chain.octets]

theorem length_lastBlock_zeros (input : Bytes) :
    (lastBlock (List.replicate 64 0) input).length = 64 :=
  length_lastBlock List.length_replicate input

theorem digest_tail (input : Bytes) :
    SecureHash.Sha256.digest input = (SecureHash.finish SecureHash.Sha256.compress
      (chainBefore input) input.length (SecureHash.tail input)).octets := by
  unfold SecureHash.Sha256.digest chainBefore
  rw [SecureHash.finish_blocks]

/-- The message is read up to its tail, and the tail decides. -/
theorem encode_tail {input : Bytes} (h : input.length < 2 ^ 61) :
    ∃ (s : State) (more : Bytes),
      encode input = (finishTail s (SecureHash.tail input).length).map (·.hash.chain.octets) ∧
      s.hash.chain = chainBefore input ∧ more.length = 192 ∧
      s.buffer = SecureHash.tail input ++ ((lastBlock (List.replicate 64 0) input).drop
        (SecureHash.tail input).length ++ more) ∧
      s.total + (SecureHash.tail input).length = input.length := by
  have hloop : ∃ s, encodeLoop ⟨initialHash, List.replicate 256 0, 0⟩ input =
      finishTail s (SecureHash.tail input).length ∧
      Rest ⟨initialHash, List.replicate 256 0, 0⟩ s input :=
    encodeLoop_rest List.length_replicate ((Nat.zero_add _).trans_lt h)
  obtain ⟨s, hs, hchain, ⟨more, hmore, hbuffer⟩, htotal⟩ := hloop
  dsimp only at hchain hbuffer htotal
  rw [initialHash_chain] at hchain
  rw [List.take_replicate] at hbuffer
  rw [Nat.zero_add] at htotal
  refine ⟨s, more, ?_, hchain, hmore, hbuffer, htotal⟩
  unfold encode
  rw [hs]
  cases finishTail s (SecureHash.tail input).length with
  | error e => rfl
  | ok s' =>
    rw [ok_bind, pure_eq_ok, result_octets]
    rfl

theorem encode_short {input : Bytes} (h : input.length < 2 ^ 61) (hshort : input.length % 64 ≤ 47) :
    encode input = .ok (SecureHash.Sha256.compress (chainBefore input)
      (filled (lastBlock (List.replicate 64 0) input) (SecureHash.tail input) input.length)).octets := by
  obtain ⟨s, more, hs, hchain, hmore, hbuffer, htotal⟩ := encode_tail h
  rw [← SecureHash.length_tail] at hshort
  obtain ⟨s', hs', hfinish⟩ := finishTail_short hbuffer (length_lastBlock_zeros input) hmore hshort
    htotal h
  rw [hs, hs', ← hchain, ← hfinish]
  rfl

theorem encode_overflow {input : Bytes} (h : input.length < 2 ^ 61) (hlow : 48 ≤ input.length % 64)
    (hhigh : input.length % 64 ≤ 55) : encode input = .error .overflow := by
  obtain ⟨s, more, hs, -, hmore, hbuffer, -⟩ := encode_tail h
  rw [← SecureHash.length_tail] at hlow hhigh
  have hlength : s.buffer.length = 256 := by
    rw [hbuffer, List.length_append, List.length_append, List.length_drop,
      length_lastBlock_zeros, hmore]
    omega
  rw [hs, finishTail_overflow hlength hlow hhigh]
  rfl

theorem encode_long {input : Bytes} (h : input.length < 2 ^ 61) (hlong : 55 < input.length % 64) :
    encode input = .ok (SecureHash.Sha256.digest input) := by
  obtain ⟨s, more, hs, hchain, hmore, hbuffer, htotal⟩ := encode_tail h
  have hmod := (SecureHash.length_tail input).symm
  rw [hmod] at hlong
  obtain ⟨s', hs', hfinish⟩ := finishTail_long hbuffer (length_lastBlock_zeros input) hmore hlong
    (by omega) htotal h hmod
  rw [hs, hs', digest_tail, ← hchain, ← hfinish]
  rfl

/-- `SHA256Util::encode` computes SHA-256 unless the message leaves a tail of 45 to 55 octets. With
48 octets or more it writes past the buffer; with fewer the octets that the block before has left in
the padding have to be zero, or the hash function has to have a collision there. -/
theorem encode_eq_digest_iff {input : Bytes} (h : input.length < 2 ^ 61) :
    encode input = .ok (SecureHash.Sha256.digest input) ↔
      55 < input.length % 64 ∨
        input.length % 64 < 48 ∧ ((∀ b ∈ stale input, b = 0) ∨ Collides input) := by
  rcases Nat.lt_or_ge 55 (input.length % 64) with hlong | hroom
  · exact iff_of_true (encode_long h hlong) (.inl hlong)
  · rcases Nat.lt_or_ge (input.length % 64) 48 with hshort | hover
    · have hproper : SecureHash.Sha256.digest input = (SecureHash.Sha256.compress
          (chainBefore input) (properBlock (SecureHash.tail input) input.length)).octets := by
        rw [digest_tail, SecureHash.finish_one _ _ (SecureHash.length_tail input).symm (by
          rw [SecureHash.length_tail]
          exact hroom), properBlock]
      have hzeros : filled (lastBlock (List.replicate 64 0) input) (SecureHash.tail input)
          input.length = properBlock (SecureHash.tail input) input.length ↔
            ∀ b ∈ stale input, b = 0 :=
        filled_eq_properBlock (length_lastBlock_zeros input)
      rw [encode_short h (by omega), hproper, Except.ok.injEq,
        SecureHash.Sha256.Chain.octets_injective.eq_iff]
      constructor
      · intro hsame
        refine .inr ⟨hshort, ?_⟩
        by_cases hequal : filled (lastBlock (List.replicate 64 0) input) (SecureHash.tail input)
            input.length = properBlock (SecureHash.tail input) input.length
        · exact .inl (hzeros.mp hequal)
        · exact .inr ⟨hequal, hsame⟩
      · rintro (hlong | ⟨-, hstale | hcollides⟩)
        · omega
        · rw [hzeros.mpr hstale]
        · exact hcollides.2
    · rw [encode_overflow h hover hroom]
      refine iff_of_false (by simp) ?_
      omega

theorem digest_abc : encode (bytes "abc") = .ok (SecureHash.Sha256.digest (bytes "abc")) :=
  (encode_eq_digest_iff (by decide)).mpr (.inr ⟨by decide, .inl (by decide)⟩)

/-- Of 48 octets. -/
theorem encode_zeros48 :
    encode (List.replicate 48 0) ≠ .ok (SecureHash.Sha256.digest (List.replicate 48 0)) := by
  rw [encode_overflow (by decide) (by decide) (by decide)]
  simp

end SHA256Util
end Sese
