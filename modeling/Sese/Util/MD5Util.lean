import Sese.Foundation.Md5
import Sese.Util.DigestPadding

/-!
# MD5

`MD5Util`. The 64 lines of `transform` have the registers in another order in each of them. The words
of a block are those of the buffer as a machine with little endian has them.
-/
namespace Sese
namespace MD5Util

open Foundation

def F (x y z : BitVec 32) : BitVec 32 := (x &&& y) ||| (~~~x &&& z)

def G (x y z : BitVec 32) : BitVec 32 := (x &&& z) ||| (y &&& ~~~z)

def H (x y z : BitVec 32) : BitVec 32 := x ^^^ y ^^^ z

def I (x y z : BitVec 32) : BitVec 32 := y ^^^ (x ||| ~~~z)

def LeftRotate (x : BitVec 32) (n : ℕ) : BitVec 32 := x <<< n ||| x >>> (32 - n)

def mix (f : BitVec 32 → BitVec 32 → BitVec 32 → BitVec 32) (a b c d x : BitVec 32) (s : ℕ)
    (t : BitVec 32) : BitVec 32 :=
  LeftRotate (a + (f b c d + x + t)) s + b

def FF (a b c d x : BitVec 32) (s : ℕ) (t : BitVec 32) : BitVec 32 := mix F a b c d x s t

def GG (a b c d x : BitVec 32) (s : ℕ) (t : BitVec 32) : BitVec 32 := mix G a b c d x s t

def HH (a b c d x : BitVec 32) (s : ℕ) (t : BitVec 32) : BitVec 32 := mix H a b c d x s t

def II (a b c d x : BitVec 32) (s : ℕ) (t : BitVec 32) : BitVec 32 := mix I a b c d x s t

def S11 : ℕ := 7
def S12 : ℕ := 12
def S13 : ℕ := 17
def S14 : ℕ := 22

def S21 : ℕ := 5
def S22 : ℕ := 9
def S23 : ℕ := 14
def S24 : ℕ := 20

def S31 : ℕ := 4
def S32 : ℕ := 11
def S33 : ℕ := 16
def S34 : ℕ := 23

def S41 : ℕ := 6
def S42 : ℕ := 10
def S43 : ℕ := 15
def S44 : ℕ := 21

inductive Reg
  | a | b | c | d
  deriving DecidableEq

inductive Op
  | FF | GG | HH | II
  deriving DecidableEq

def Op.run : Op → BitVec 32 → BitVec 32 → BitVec 32 → BitVec 32 → BitVec 32 → ℕ → BitVec 32 → BitVec 32
  | FF => MD5Util.FF
  | GG => MD5Util.GG
  | HH => MD5Util.HH
  | II => MD5Util.II

/-- A line of `transform`: the first register is assigned to, `k` is the index into `x`. -/
structure Call where
  op : Op
  (a b c d : Reg)
  (k s : ℕ)
  t : BitVec 32
  deriving DecidableEq

def Call.run (x : ℕ → BitVec 32) (reg : Reg → BitVec 32) (call : Call) : Reg → BitVec 32 :=
  Function.update reg call.a (call.op.run (reg call.a) (reg call.b) (reg call.c) (reg call.d)
    (x call.k) call.s call.t)

def calls : List Call :=
  [⟨.FF, .a, .b, .c, .d, 0, S11, 0xd76aa478⟩, ⟨.FF, .d, .a, .b, .c, 1, S12, 0xe8c7b756⟩,
    ⟨.FF, .c, .d, .a, .b, 2, S13, 0x242070db⟩, ⟨.FF, .b, .c, .d, .a, 3, S14, 0xc1bdceee⟩,
    ⟨.FF, .a, .b, .c, .d, 4, S11, 0xf57c0faf⟩, ⟨.FF, .d, .a, .b, .c, 5, S12, 0x4787c62a⟩,
    ⟨.FF, .c, .d, .a, .b, 6, S13, 0xa8304613⟩, ⟨.FF, .b, .c, .d, .a, 7, S14, 0xfd469501⟩,
    ⟨.FF, .a, .b, .c, .d, 8, S11, 0x698098d8⟩, ⟨.FF, .d, .a, .b, .c, 9, S12, 0x8b44f7af⟩,
    ⟨.FF, .c, .d, .a, .b, 10, S13, 0xffff5bb1⟩, ⟨.FF, .b, .c, .d, .a, 11, S14, 0x895cd7be⟩,
    ⟨.FF, .a, .b, .c, .d, 12, S11, 0x6b901122⟩, ⟨.FF, .d, .a, .b, .c, 13, S12, 0xfd987193⟩,
    ⟨.FF, .c, .d, .a, .b, 14, S13, 0xa679438e⟩, ⟨.FF, .b, .c, .d, .a, 15, S14, 0x49b40821⟩,
    ⟨.GG, .a, .b, .c, .d, 1, S21, 0xf61e2562⟩, ⟨.GG, .d, .a, .b, .c, 6, S22, 0xc040b340⟩,
    ⟨.GG, .c, .d, .a, .b, 11, S23, 0x265e5a51⟩, ⟨.GG, .b, .c, .d, .a, 0, S24, 0xe9b6c7aa⟩,
    ⟨.GG, .a, .b, .c, .d, 5, S21, 0xd62f105d⟩, ⟨.GG, .d, .a, .b, .c, 10, S22, 0x2441453⟩,
    ⟨.GG, .c, .d, .a, .b, 15, S23, 0xd8a1e681⟩, ⟨.GG, .b, .c, .d, .a, 4, S24, 0xe7d3fbc8⟩,
    ⟨.GG, .a, .b, .c, .d, 9, S21, 0x21e1cde6⟩, ⟨.GG, .d, .a, .b, .c, 14, S22, 0xc33707d6⟩,
    ⟨.GG, .c, .d, .a, .b, 3, S23, 0xf4d50d87⟩, ⟨.GG, .b, .c, .d, .a, 8, S24, 0x455a14ed⟩,
    ⟨.GG, .a, .b, .c, .d, 13, S21, 0xa9e3e905⟩, ⟨.GG, .d, .a, .b, .c, 2, S22, 0xfcefa3f8⟩,
    ⟨.GG, .c, .d, .a, .b, 7, S23, 0x676f02d9⟩, ⟨.GG, .b, .c, .d, .a, 12, S24, 0x8d2a4c8a⟩,
    ⟨.HH, .a, .b, .c, .d, 5, S31, 0xfffa3942⟩, ⟨.HH, .d, .a, .b, .c, 8, S32, 0x8771f681⟩,
    ⟨.HH, .c, .d, .a, .b, 11, S33, 0x6d9d6122⟩, ⟨.HH, .b, .c, .d, .a, 14, S34, 0xfde5380c⟩,
    ⟨.HH, .a, .b, .c, .d, 1, S31, 0xa4beea44⟩, ⟨.HH, .d, .a, .b, .c, 4, S32, 0x4bdecfa9⟩,
    ⟨.HH, .c, .d, .a, .b, 7, S33, 0xf6bb4b60⟩, ⟨.HH, .b, .c, .d, .a, 10, S34, 0xbebfbc70⟩,
    ⟨.HH, .a, .b, .c, .d, 13, S31, 0x289b7ec6⟩, ⟨.HH, .d, .a, .b, .c, 0, S32, 0xeaa127fa⟩,
    ⟨.HH, .c, .d, .a, .b, 3, S33, 0xd4ef3085⟩, ⟨.HH, .b, .c, .d, .a, 6, S34, 0x4881d05⟩,
    ⟨.HH, .a, .b, .c, .d, 9, S31, 0xd9d4d039⟩, ⟨.HH, .d, .a, .b, .c, 12, S32, 0xe6db99e5⟩,
    ⟨.HH, .c, .d, .a, .b, 15, S33, 0x1fa27cf8⟩, ⟨.HH, .b, .c, .d, .a, 2, S34, 0xc4ac5665⟩,
    ⟨.II, .a, .b, .c, .d, 0, S41, 0xf4292244⟩, ⟨.II, .d, .a, .b, .c, 7, S42, 0x432aff97⟩,
    ⟨.II, .c, .d, .a, .b, 14, S43, 0xab9423a7⟩, ⟨.II, .b, .c, .d, .a, 5, S44, 0xfc93a039⟩,
    ⟨.II, .a, .b, .c, .d, 12, S41, 0x655b59c3⟩, ⟨.II, .d, .a, .b, .c, 3, S42, 0x8f0ccc92⟩,
    ⟨.II, .c, .d, .a, .b, 10, S43, 0xffeff47d⟩, ⟨.II, .b, .c, .d, .a, 1, S44, 0x85845dd1⟩,
    ⟨.II, .a, .b, .c, .d, 8, S41, 0x6fa87e4f⟩, ⟨.II, .d, .a, .b, .c, 15, S42, 0xfe2ce6e0⟩,
    ⟨.II, .c, .d, .a, .b, 6, S43, 0xa3014314⟩, ⟨.II, .b, .c, .d, .a, 13, S44, 0x4e0811a1⟩,
    ⟨.II, .a, .b, .c, .d, 4, S41, 0xf7537e82⟩, ⟨.II, .d, .a, .b, .c, 11, S42, 0xbd3af235⟩,
    ⟨.II, .c, .d, .a, .b, 2, S43, 0x2ad7d2bb⟩, ⟨.II, .b, .c, .d, .a, 9, S44, 0xeb86d391⟩]

@[ext] structure Result where
  (r0 r1 r2 r3 : BitVec 32)
  deriving DecidableEq

/-- The variables of `transform` at its start. -/
def Result.registers (result : Result) : Reg → BitVec 32
  | .a => result.r0
  | .b => result.r1
  | .c => result.r2
  | .d => result.r3

/-- Four octets of the buffer as a `uint32_t`, with little endian. -/
def wordOf (buffer : Bytes) (i : ℕ) : BitVec 32 :=
  let octet (j : ℕ) : BitVec 32 := (buffer.getD j 0).toBitVec.setWidth 32
  octet (4 * i) ||| octet (4 * i + 1) <<< 8 ||| octet (4 * i + 2) <<< 16 ||| octet (4 * i + 3) <<< 24

def transform (result : Result) (buffer : Bytes) : Result :=
  let reg := calls.foldl (Call.run (wordOf buffer)) result.registers
  ⟨result.r0 + reg .a, result.r1 + reg .b, result.r2 + reg .c, result.r3 + reg .d⟩

def PADDING : Bytes := 0x80 :: List.replicate 63 0

/-- The octets of a `uint32_t`, with little endian. -/
def toLittleEndian32 (n : ℕ) : Bytes :=
  [.ofNat n, .ofNat (n / 2 ^ 8), .ofNat (n / 2 ^ 16), .ofNat (n / 2 ^ 24)]

def toLittleEndian64 (n : ℕ) : Bytes := toLittleEndian32 n ++ toLittleEndian32 (n / 2 ^ 32)

/-- The local variables of `encode`. -/
structure State where
  result : Result
  buffer : Bytes
  length : ℕ

/-- A round of the loop that is the last one, when `len` octets have been read into the buffer. -/
def finishTail (s : State) (len : ℕ) : Except Fault State := do
  if len = 0 then
    let buffer ← store s.buffer len (PADDING.take (64 - len - 8))
    let length := s.length * 8 % 2 ^ 64
    let buffer ← store buffer 56 (toLittleEndian64 length)
    return ⟨transform s.result buffer, buffer, length⟩
  else if len < 56 then
    let length := (s.length + len) % 2 ^ 64
    let buffer ← store s.buffer len (PADDING.take (64 - len - 8))
    let length := length * 8 % 2 ^ 64
    let buffer ← store buffer 56 (toLittleEndian64 length)
    return ⟨transform s.result buffer, buffer, length⟩
  else
    let length := (s.length + len) % 2 ^ 64
    let buffer ← store s.buffer len (PADDING.take (64 - len))
    let result := transform s.result buffer
    let buffer ← memset buffer 0 0 56
    let length := length * 8 % 2 ^ 64
    let buffer ← store buffer 56 (toLittleEndian64 length)
    return ⟨transform result buffer, buffer, length⟩

/-- The loop of `encode`; every `read` fills the 64 octets as long as there are so many. -/
def encodeLoop (s : State) (input : Bytes) : Except Fault State := do
  let buffer ← store s.buffer 0 (input.take 64)
  if _h : (input.take 64).length = 64 then
    encodeLoop ⟨transform s.result buffer, buffer, (s.length + 64) % 2 ^ 64⟩ (input.drop 64)
  else finishTail { s with buffer := buffer } (input.take 64).length
termination_by input.length
decreasing_by
  simp at _h ⊢
  omega

/-- `A`, `B`, `C` and `D`. -/
def initialResult : Result := ⟨0x67452301, 0xefcdab89, 0x98badcfe, 0x10325476⟩

/-- `MD5Util::encode`. The buffer is not initialised and holds `indet` at first. -/
def encode (indet : ℕ → UInt8) (input : Bytes) : Except Fault Bytes := do
  let s ← encodeLoop ⟨initialResult, (List.range 64).map indet, 0⟩ input
  return [s.result.r0, s.result.r1, s.result.r2, s.result.r3].flatMap fun r =>
    toLittleEndian32 r.toNat

open SecureHash (Word finishWith)

/-- The register that has the place of `r` one line later. -/
def Reg.back : Reg → Reg
  | a => d
  | b => a
  | c => b
  | d => c

theorem Reg.back_injective : Function.Injective Reg.back := by
  intro r r'
  cases r <;> cases r' <;> simp [Reg.back]

def opAt (t : ℕ) : Op := if t < 16 then .FF else if t < 32 then .GG else if t < 48 then .HH else .II

def callAt (t : ℕ) : Call :=
  ⟨opAt t, Reg.back^[t] .a, Reg.back^[t] .b, Reg.back^[t] .c, Reg.back^[t] .d, Md5.place t,
    Md5.shift t, .ofNat 32 (Md5.table.getD t 0)⟩

theorem calls_eq : calls = (List.range 64).map callAt := by decide

/-- The words of the registers by the names that RFC 1321 has for them. -/
def view (σ : Reg → Reg) (reg : Reg → Word) : Md5.Chain :=
  ⟨reg (σ .a), reg (σ .b), reg (σ .c), reg (σ .d)⟩

theorem opAt_run (t : ℕ) : (opAt t).run = mix (Md5.mix t) := by
  unfold opAt Md5.mix
  split_ifs <;> rfl

theorem shift_lt (t : ℕ) : Md5.shift t < 32 := by
  have hmod := Nat.mod_lt t (by decide : 0 < 4)
  have hall : ∀ l ∈ [[7, 12, 17, 22], [5, 9, 14, 20], [4, 11, 16, 23], [6, 10, 15, 21]],
      ∀ k < 4, l.getD k 0 < 32 := by decide
  unfold Md5.shift
  split_ifs <;> exact hall _ (by simp) _ hmod

theorem view_run {σ : Reg → Reg} (hσ : Function.Injective σ) {t : ℕ} (ht : t < 64)
    (x : ℕ → Word) (reg : Reg → Word) :
    view (σ ∘ Reg.back) (Call.run x reg ⟨opAt t, σ .a, σ .b, σ .c, σ .d, Md5.place t, Md5.shift t,
      .ofNat 32 (Md5.table.getD t 0)⟩) = Md5.step (view σ reg) t (x (Md5.place t)) := by
  have hne : ∀ r r', r ≠ r' → σ r ≠ σ r' := fun r r' h => hσ.ne h
  unfold Call.run
  dsimp only
  rw [opAt_run, ← Md5.sine_eq ht, mix, LeftRotate, shifts_eq_rotateLeft _ (shift_lt t)]
  simp only [view, Md5.step, Function.comp_apply, Reg.back]
  simp [hne]
  ac_rfl

theorem run_calls (x : ℕ → Word) (reg : Reg → Word) {n : ℕ} (hn : n ≤ 64) :
    view Reg.back^[n] (((List.range n).map callAt).foldl (Call.run x) reg) =
      Md5.steps x (view id reg) n := by
  induction n with
  | zero => rfl
  | succ n ih =>
    rw [List.range_succ, List.map_append, List.foldl_append, List.map_singleton, List.foldl_cons,
      List.foldl_nil, Md5.steps_succ, ← ih (by omega), Function.iterate_succ, callAt]
    exact view_run (Reg.back_injective.iterate n) (by omega) x _

def Result.chain (result : Result) : Md5.Chain := ⟨result.r0, result.r1, result.r2, result.r3⟩

theorem wordOf_eq (buffer : Bytes) (i : ℕ) : wordOf buffer i = Md5.wordAt buffer i := by
  unfold wordOf Md5.wordAt
  rw [← word_eq_or]

theorem transform_chain (result : Result) (buffer : Bytes) :
    (transform result buffer).chain = Md5.compress result.chain buffer := by
  have haround : Reg.back^[64] = id := by
    funext r
    cases r <;> decide
  have hwords : wordOf buffer = Md5.wordAt buffer := funext (wordOf_eq buffer)
  have hlines := run_calls (Md5.wordAt buffer) result.registers (Nat.le_refl 64)
  rw [← calls_eq, haround] at hlines
  have hstart : view id result.registers = result.chain := rfl
  rw [hstart] at hlines
  unfold transform Md5.compress
  rw [hwords, ← hlines]
  simp only [Result.chain, view, id_eq]

theorem toLittleEndian32_eq (n : ℕ) : toLittleEndian32 n = Md5.octets (BitVec.ofNat 32 n) := by
  simp only [toLittleEndian32, Md5.octets, SecureHash.octets, BitVec.toNat_ofNat,
    List.reverse_cons, List.reverse_nil, List.nil_append, List.cons_append, List.cons.injEq,
    ← UInt8.toNat_inj, UInt8.toNat_ofNat', and_true]
  omega

theorem toLittleEndian64_eq {total : ℕ} (h : total < 2 ^ 61) :
    toLittleEndian64 (total * 8 % 2 ^ 64) = Md5.octets64 (8 * total) := by
  have hmod : total * 8 % 2 ^ 64 = 8 * total := by omega
  rw [hmod, toLittleEndian64, Md5.octets64, toLittleEndian32_eq, toLittleEndian32_eq]

theorem take_padding {n : ℕ} (h : n + 1 ≤ 64) :
    PADDING.take (n + 1) = 0x80 :: List.replicate n 0 := by
  rw [PADDING, List.take_succ_cons, List.take_replicate, Nat.min_eq_left (by omega)]

section Tail

variable {s : State} {rest old : Bytes} {total : ℕ}

/-- With at most 55 octets the branches differ only in that an empty tail is not counted. -/
theorem finishTail_short (hshort : rest.length < 56) (htotal : s.length + rest.length = total)
    (hfits : total < 2 ^ 61) :
    finishTail s rest.length = (store s.buffer rest.length (PADDING.take (64 - rest.length - 8)) >>=
      fun buffer => store buffer 56 (toLittleEndian64 (total * 8 % 2 ^ 64)) >>=
        fun buffer => .ok ⟨transform s.result buffer, buffer, total * 8 % 2 ^ 64⟩) := by
  have hmod : (s.length + rest.length) % 2 ^ 64 = total := by omega
  unfold finishTail
  by_cases hzero : rest.length = 0
  · have hsame : s.length = total := by omega
    rw [if_pos hzero, hsame]
    rfl
  · rw [if_neg hzero, if_pos hshort, hmod]
    rfl

theorem finishTail_chain (hbuffer : s.buffer = rest ++ old) (hlength : rest.length + old.length = 64)
    (hshort : rest.length < 64) (htotal : s.length + rest.length = total)
    (hmod : total % 64 = rest.length) (hfits : total < 2 ^ 61) :
    ∃ s', finishTail s rest.length = .ok s' ∧
      s'.result.chain = finishWith Md5.compress s.result.chain (Md5.octets64 (8 * total)) total rest := by
  by_cases hlong : rest.length < 56
  · have hn : 64 - rest.length - 8 = 55 - rest.length + 1 := by omega
    rw [finishTail_short hlong htotal hfits, hbuffer, hn, take_padding (by omega),
      store_left rfl (by simp; omega), ok_bind, ← List.append_assoc,
      store_last (by simp [toLittleEndian64, toLittleEndian32]) (by simp; omega) (by simp; omega),
      ok_bind, toLittleEndian64_eq hfits]
    refine ⟨_, rfl, ?_⟩
    rw [transform_chain, SecureHash.finishWith_one _ _ (Md5.length_octets64 _) hmod (by omega)]
    simp
  · have hcount : (s.length + rest.length) % 2 ^ 64 = total := by omega
    have hn : 64 - rest.length = 63 - rest.length + 1 := by omega
    have hend : old.drop (0x80 :: List.replicate (63 - rest.length) (0 : UInt8)).length = [] :=
      List.drop_of_length_le (by simp; omega)
    unfold finishTail
    rw [if_neg (by omega), if_neg hlong, hcount, hbuffer, hn, take_padding (by omega),
      store_left rfl (by simp; omega), ok_bind, hend, List.append_nil, memset_eq_store,
      store_front (by simp; omega), List.length_replicate, ok_bind]
    dsimp only
    rw [store_last (by simp [toLittleEndian64, toLittleEndian32]) (by simp) (by simp; omega), ok_bind,
      toLittleEndian64_eq hfits]
    refine ⟨_, rfl, ?_⟩
    rw [transform_chain, transform_chain,
      SecureHash.finishWith_two _ _ (Md5.length_octets64 _) hmod (by omega)]

end Tail

theorem encodeLoop_chain {s : State} {input : Bytes} {total : ℕ} (hbuffer : s.buffer.length = 64)
    (htotal : s.length + input.length = total) (hmod : s.length % 64 = 0) (hfits : total < 2 ^ 61) :
    ∃ s', encodeLoop s input = .ok s' ∧
      s'.result.chain =
        finishWith Md5.compress s.result.chain (Md5.octets64 (8 * total)) total input := by
  induction hn : input.length using Nat.strongRecOn generalizing s input with
  | ind n ih =>
    rw [encodeLoop, store_front (by simp [hbuffer]), ok_bind]
    by_cases hfull : 64 ≤ input.length
    · have htake : (input.take 64).length = 64 := by simp [hfull]
      have hrest : s.buffer.drop (input.take 64).length = [] :=
        List.drop_of_length_le (by omega)
      have hcount : (s.length + 64) % 2 ^ 64 = s.length + 64 := by omega
      rw [dif_pos htake, hrest, List.append_nil, hcount]
      generalize hs₁ : State.mk (transform s.result (input.take 64)) (input.take 64) (s.length + 64) = s₁
      have hchain : s₁.result.chain = Md5.compress s.result.chain (input.take 64) := by
        rw [← hs₁, transform_chain]
      have hkept : s₁.buffer = input.take 64 := by rw [← hs₁]
      have hlen : s₁.length = s.length + 64 := by rw [← hs₁]
      have hdrop : (input.drop 64).length = input.length - 64 := by simp
      rw [SecureHash.finishWith_block _ _ _ hfull, ← hchain]
      exact ih _ (by omega) (by rw [hkept, htake]) (by omega) (by omega) rfl
    · have htake : input.take 64 = input := List.take_of_length_le (by omega)
      rw [htake, dif_neg (by omega)]
      exact finishTail_chain rfl (by simp [hbuffer]; omega) (by omega) htotal (by omega) hfits

/-- `MD5Util::encode` computes MD5, whatever the buffer holds at first. -/
theorem encode_eq_md5 (indet : ℕ → UInt8) (input : Bytes) (h : input.length < 2 ^ 61) :
    encode indet input = .ok (Md5.digest input) := by
  obtain ⟨s, hs, hchain⟩ := encodeLoop_chain (s := ⟨initialResult, (List.range 64).map indet, 0⟩)
    (by simp) (Nat.zero_add _) rfl h
  have hwords : ∀ w : Word, toLittleEndian32 w.toNat = Md5.octets w := by
    intro w
    rw [toLittleEndian32_eq, BitVec.ofNat_toNat, BitVec.setWidth_eq]
  have hinit : initialResult.chain = Md5.init := rfl
  rw [hinit] at hchain
  unfold encode
  rw [hs, ok_bind, pure_eq_ok, Md5.digest, Md5.Chain.octets, ← hchain]
  simp only [Result.chain, hwords]

/-- A message of the test suite in RFC 1321. -/
theorem encode_message_digest : encode (fun _ => 0) (bytes "message digest") =
    .ok (Md5.digest (bytes "message digest")) :=
  encode_eq_md5 _ _ (by decide)

end MD5Util
end Sese
