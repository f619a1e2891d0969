import Sese.Util.DigestPadding

/-!
# SHA-1

`SHA1Util`. The eighty rounds of `transform` are written out, with the registers in another order in
each of them and the message schedule in a ring of sixteen words. Taken by their number they are the
rounds of FIPS 180-4.
-/
namespace Sese
namespace SHA1Util

open Foundation

def rol (value : BitVec 32) (bits : ℕ) : BitVec 32 := value <<< bits ||| value >>> (32 - bits)

def blk (block : ℕ → BitVec 32) (i : ℕ) : BitVec 32 :=
  rol (block ((i + 13) &&& 15) ^^^ block ((i + 8) &&& 15) ^^^ block ((i + 2) &&& 15) ^^^ block i) 1

/-- The working variables of `transform`. -/
inductive Reg
  | a | b | c | d | e
  deriving DecidableEq

/-- What `transform` works with: the array `block` and its variables. -/
structure Work where
  block : ℕ → BitVec 32
  reg : Reg → BitVec 32

/-- What the five kinds of rounds have in common. -/
def mix (g : BitVec 32 → BitVec 32 → BitVec 32 → BitVec 32) (k : BitVec 32) (s : Work)
    (v w x y z : Reg) (i : ℕ) : Work :=
  let reg := Function.update s.reg z
    (s.reg z + (g (s.reg w) (s.reg x) (s.reg y) + s.block i + k + rol (s.reg v) 5))
  { s with reg := Function.update reg w (rol (reg w) 30) }

/-- The first line of all but `R0`. -/
def expand (s : Work) (i : ℕ) : Work := { s with block := Function.update s.block i (blk s.block i) }

def R0 (s : Work) (v w x y z : Reg) (i : ℕ) : Work :=
  mix (fun w x y => (w &&& (x ^^^ y)) ^^^ y) 0x5a827999 s v w x y z i

def R1 (s : Work) (v w x y z : Reg) (i : ℕ) : Work :=
  mix (fun w x y => (w &&& (x ^^^ y)) ^^^ y) 0x5a827999 (expand s i) v w x y z i

def R2 (s : Work) (v w x y z : Reg) (i : ℕ) : Work :=
  mix (fun w x y => w ^^^ x ^^^ y) 0x6ed9eba1 (expand s i) v w x y z i

def R3 (s : Work) (v w x y z : Reg) (i : ℕ) : Work :=
  mix (fun w x y => ((w ||| x) &&& y) ||| (w &&& x)) 0x8f1bbcdc (expand s i) v w x y z i

def R4 (s : Work) (v w x y z : Reg) (i : ℕ) : Work :=
  mix (fun w x y => w ^^^ x ^^^ y) 0xca62c1d6 (expand s i) v w x y z i

inductive Op
  | R0 | R1 | R2 | R3 | R4
  deriving DecidableEq

def Op.run : Op → Work → Reg → Reg → Reg → Reg → Reg → ℕ → Work
  | R0 => SHA1Util.R0
  | R1 => SHA1Util.R1
  | R2 => SHA1Util.R2
  | R3 => SHA1Util.R3
  | R4 => SHA1Util.R4

/-- A line of `transform`. -/
structure Call where
  op : Op
  (v w x y z : Reg)
  i : ℕ
  deriving DecidableEq

def Call.run (s : Work) (call : Call) : Work :=
  call.op.run s call.v call.w call.x call.y call.z call.i

def calls : List Call :=
  [⟨.R0, .a, .b, .c, .d, .e, 0⟩, ⟨.R0, .e, .a, .b, .c, .d, 1⟩, ⟨.R0, .d, .e, .a, .b, .c, 2⟩,
    ⟨.R0, .c, .d, .e, .a, .b, 3⟩, ⟨.R0, .b, .c, .d, .e, .a, 4⟩, ⟨.R0, .a, .b, .c, .d, .e, 5⟩,
    ⟨.R0, .e, .a, .b, .c, .d, 6⟩, ⟨.R0, .d, .e, .a, .b, .c, 7⟩, ⟨.R0, .c, .d, .e, .a, .b, 8⟩,
    ⟨.R0, .b, .c, .d, .e, .a, 9⟩, ⟨.R0, .a, .b, .c, .d, .e, 10⟩, ⟨.R0, .e, .a, .b, .c, .d, 11⟩,
    ⟨.R0, .d, .e, .a, .b, .c, 12⟩, ⟨.R0, .c, .d, .e, .a, .b, 13⟩, ⟨.R0, .b, .c, .d, .e, .a, 14⟩,
    ⟨.R0, .a, .b, .c, .d, .e, 15⟩, ⟨.R1, .e, .a, .b, .c, .d, 0⟩, ⟨.R1, .d, .e, .a, .b, .c, 1⟩,
    ⟨.R1, .c, .d, .e, .a, .b, 2⟩, ⟨.R1, .b, .c, .d, .e, .a, 3⟩, ⟨.R2, .a, .b, .c, .d, .e, 4⟩,
    ⟨.R2, .e, .a, .b, .c, .d, 5⟩, ⟨.R2, .d, .e, .a, .b, .c, 6⟩, ⟨.R2, .c, .d, .e, .a, .b, 7⟩,
    ⟨.R2, .b, .c, .d, .e, .a, 8⟩, ⟨.R2, .a, .b, .c, .d, .e, 9⟩, ⟨.R2, .e, .a, .b, .c, .d, 10⟩,
    ⟨.R2, .d, .e, .a, .b, .c, 11⟩, ⟨.R2, .c, .d, .e, .a, .b, 12⟩, ⟨.R2, .b, .c, .d, .e, .a, 13⟩,
    ⟨.R2, .a, .b, .c, .d, .e, 14⟩, ⟨.R2, .e, .a, .b, .c, .d, 15⟩, ⟨.R2, .d, .e, .a, .b, .c, 0⟩,
    ⟨.R2, .c, .d, .e, .a, .b, 1⟩, ⟨.R2, .b, .c, .d, .e, .a, 2⟩, ⟨.R2, .a, .b, .c, .d, .e, 3⟩,
    ⟨.R2, .e, .a, .b, .c, .d, 4⟩, ⟨.R2, .d, .e, .a, .b, .c, 5⟩, ⟨.R2, .c, .d, .e, .a, .b, 6⟩,
    ⟨.R2, .b, .c, .d, .e, .a, 7⟩, ⟨.R3, .a, .b, .c, .d, .e, 8⟩, ⟨.R3, .e, .a, .b, .c, .d, 9⟩,
    ⟨.R3, .d, .e, .a, .b, .c, 10⟩, ⟨.R3, .c, .d, .e, .a, .b, 11⟩, ⟨.R3, .b, .c, .d, .e, .a, 12⟩,
    ⟨.R3, .a, .b, .c, .d, .e, 13⟩, ⟨.R3, .e, .a, .b, .c, .d, 14⟩, ⟨.R3, .d, .e, .a, .b, .c, 15⟩,
    ⟨.R3, .c, .d, .e, .a, .b, 0⟩, ⟨.R3, .b, .c, .d, .e, .a, 1⟩, ⟨.R3, .a, .b, .c, .d, .e, 2⟩,
    ⟨.R3, .e, .a, .b, .c, .d, 3⟩, ⟨.R3, .d, .e, .a, .b, .c, 4⟩, ⟨.R3, .c, .d, .e, .a, .b, 5⟩,
    ⟨.R3, .b, .c, .d, .e, .a, 6⟩, ⟨.R3, .a, .b, .c, .d, .e, 7⟩, ⟨.R3, .e, .a, .b, .c, .d, 8⟩,
    ⟨.R3, .d, .e, .a, .b, .c, 9⟩, ⟨.R3, .c, .d, .e, .a, .b, 10⟩, ⟨.R3, .b, .c, .d, .e, .a, 11⟩,
    ⟨.R4, .a, .b, .c, .d, .e, 12⟩, ⟨.R4, .e, .a, .b, .c, .d, 13⟩, ⟨.R4, .d, .e, .a, .b, .c, 14⟩,
    ⟨.R4, .c, .d, .e, .a, .b, 15⟩, ⟨.R4, .b, .c, .d, .e, .a, 0⟩, ⟨.R4, .a, .b, .c, .d, .e, 1⟩,
    ⟨.R4, .e, .a, .b, .c, .d, 2⟩, ⟨.R4, .d, .e, .a, .b, .c, 3⟩, ⟨.R4, .c, .d, .e, .a, .b, 4⟩,
    ⟨.R4, .b, .c, .d, .e, .a, 5⟩, ⟨.R4, .a, .b, .c, .d, .e, 6⟩, ⟨.R4, .e, .a, .b, .c, .d, 7⟩,
    ⟨.R4, .d, .e, .a, .b, .c, 8⟩, ⟨.R4, .c, .d, .e, .a, .b, 9⟩, ⟨.R4, .b, .c, .d, .e, .a, 10⟩,
    ⟨.R4, .a, .b, .c, .d, .e, 11⟩, ⟨.R4, .e, .a, .b, .c, .d, 12⟩, ⟨.R4, .d, .e, .a, .b, .c, 13⟩,
    ⟨.R4, .c, .d, .e, .a, .b, 14⟩, ⟨.R4, .b, .c, .d, .e, .a, 15⟩]

structure SHA1Context where
  h0 : BitVec 32 := 0x67452301
  h1 : BitVec 32 := 0xEFCDAB89
  h2 : BitVec 32 := 0x98BADCFE
  h3 : BitVec 32 := 0x10325476
  h4 : BitVec 32 := 0xC3D2E1F0
  total : ℕ := 0

/-- The copies of the digest that the rounds work with. -/
def workingVars (ctx : SHA1Context) : Reg → BitVec 32
  | .a => ctx.h0
  | .b => ctx.h1
  | .c => ctx.h2
  | .d => ctx.h3
  | .e => ctx.h4

/-- The context, and the array `block` as the rounds leave it. -/
def transform (ctx : SHA1Context) (block : ℕ → BitVec 32) : SHA1Context × (ℕ → BitVec 32) :=
  let s := calls.foldl Call.run { block := block, reg := workingVars ctx }
  ({ ctx with
      h0 := ctx.h0 + s.reg .a
      h1 := ctx.h1 + s.reg .b
      h2 := ctx.h2 + s.reg .c
      h3 := ctx.h3 + s.reg .d
      h4 := ctx.h4 + s.reg .e }, s.block)

/-- Sixteen words of the array are written. -/
def bufferToBlock (buffer : Bytes) (block : ℕ → BitVec 32) : ℕ → BitVec 32 := fun i =>
  let octet (j : ℕ) : BitVec 32 := (buffer.getD j 0).toBitVec.setWidth 32
  if i < 16 then
    octet (4 * i + 3) ||| octet (4 * i + 2) <<< 8 ||| octet (4 * i + 1) <<< 16 |||
      octet (4 * i) <<< 24
  else block i

/-- The local variables of `encode`. -/
structure State where
  ctx : SHA1Context
  buffer : Bytes
  block : ℕ → BitVec 32

/-- `buffer_to_block` and `transform`. -/
def compressBuffer (s : State) : State :=
  let r := transform s.ctx (bufferToBlock s.buffer s.block)
  { s with ctx := r.1, block := r.2 }

/-- `ctx.total += size`; the field is a `uint64_t`. -/
def addTotal (s : State) (size : ℕ) : State :=
  { s with ctx := { s.ctx with total := (s.ctx.total + size) % 2 ^ 64 } }

/-- The tail, of which `size` octets have been read into the buffer. -/
def finishTail (s : State) (size : ℕ) : Except Fault State := do
  let s := addTotal s size
  if size > 55 then
    let buffer ← store s.buffer size [0x80]
    let buffer ← memset buffer (size + 1) 0 (63 - size)
    let s := compressBuffer { s with buffer := buffer }
    let buffer ← memset s.buffer 0 0 56
    let buffer ← store buffer 56 (toBigEndian64 (s.ctx.total * 8 % 2 ^ 64))
    return compressBuffer { s with buffer := buffer }
  else
    let buffer ← store s.buffer size [0x80]
    let buffer ← memset buffer (size + 1) 0 (55 - size)
    let buffer ← store buffer 56 (toBigEndian64 (s.ctx.total * 8 % 2 ^ 64))
    return compressBuffer { s with buffer := buffer }

/-- The loop of `encode` and what is behind it; every `read` fills the 64 octets as long as there are
so many. -/
def encodeLoop (s : State) (input : Bytes) : Except Fault State := do
  let buffer ← store s.buffer 0 (input.take 64)
  let s := { s with buffer := buffer }
  if _h : (input.take 64).length = 64 then encodeLoop (compressBuffer (addTotal s 64)) (input.drop 64)
  else finishTail s (input.take 64).length
termination_by input.length
decreasing_by
  simp at _h ⊢
  omega

/-- `SHA1Util::encode`. The arrays are not initialised: `buffer` holds `indet` at first, `block` holds
`indetBlock`. -/
def encode (indet : ℕ → UInt8) (indetBlock : ℕ → BitVec 32) (input : Bytes) : Except Fault Bytes := do
  let s ← encodeLoop { ctx := {}, buffer := (List.range 64).map indet, block := indetBlock } input
  return [s.ctx.h0, s.ctx.h1, s.ctx.h2, s.ctx.h3, s.ctx.h4].flatMap fun h => toBigEndian32 h.toNat

open SecureHash (Word ch maj parity)

theorem rol_eq (value : Word) {bits : ℕ} (h : bits < 32) : rol value bits = value.rotateLeft bits :=
  shifts_eq_rotateLeft value h

theorem choose_eq (w x y : Word) : (w &&& (x ^^^ y)) ^^^ y = ch w x y := by
  ext i hi
  simp only [ch, BitVec.getElem_xor, BitVec.getElem_and, BitVec.getElem_not]
  cases w[i] <;> simp

theorem majority_eq (w x y : Word) : ((w ||| x) &&& y) ||| (w &&& x) = maj w x y := by
  ext i hi
  simp only [maj, BitVec.getElem_xor, BitVec.getElem_and, BitVec.getElem_or]
  cases w[i] <;> cases x[i] <;> simp

/-- The register that has the place of `r` one round later. -/
def Reg.back : Reg → Reg
  | a => e
  | b => a
  | c => b
  | d => c
  | e => d

theorem Reg.back_injective : Function.Injective Reg.back := by
  intro r r'
  cases r <;> cases r' <;> simp [Reg.back]

def opAt (t : ℕ) : Op :=
  if t < 16 then .R0 else if t < 20 then .R1 else if t < 40 then .R2 else if t < 60 then .R3 else .R4

/-- The registers move on by one place in every round, and the words go around. -/
def callAt (t : ℕ) : Call :=
  ⟨opAt t, Reg.back^[t] .a, Reg.back^[t] .b, Reg.back^[t] .c, Reg.back^[t] .d, Reg.back^[t] .e, t % 16⟩

theorem calls_eq : calls = (List.range 80).map callAt := by decide

/-- The working variables, by the names that FIPS 180-4 has for them. -/
def view (σ : Reg → Reg) (reg : Reg → Word) : SecureHash.Sha1.Chain :=
  ⟨reg (σ .a), reg (σ .b), reg (σ .c), reg (σ .d), reg (σ .e)⟩

theorem view_mix {σ : Reg → Reg} (hσ : Function.Injective σ) {g : Word → Word → Word → Word} {t : ℕ}
    (hg : ∀ w x y, g w x y = SecureHash.Sha1.f t w x y) (s : Work) (i : ℕ) :
    view (σ ∘ Reg.back) (mix g (SecureHash.Sha1.k t) s (σ .a) (σ .b) (σ .c) (σ .d) (σ .e) i).reg =
      SecureHash.Sha1.round (view σ s.reg) t (s.block i) := by
  have hne : ∀ r r', r ≠ r' → σ r ≠ σ r' := fun r r' h => hσ.ne h
  simp only [view, mix, SecureHash.Sha1.round, Function.comp_apply, Reg.back, hg]
  simp [hne, rol_eq]
  ac_rfl

/-- The ring of sixteen words before round `t`: those of the message at first, later the last
sixteen of the schedule. -/
def Scheduled (m : ℕ → Word) (t : ℕ) (block : ℕ → Word) : Prop :=
  ∀ j, j < max t 16 → max t 16 ≤ j + 16 → block (j % 16) = SecureHash.Sha1.schedule m j

variable {m : ℕ → Word} {t : ℕ} {block : ℕ → Word}

theorem scheduled_start (h : ∀ i < 16, block i = m i) : Scheduled m 0 block := by
  intro j hj _
  have hlt : j < 16 := by simpa using hj
  rw [Nat.mod_eq_of_lt hlt, h j hlt, SecureHash.Sha1.schedule_start m hlt]

theorem Scheduled.word (h : Scheduled m t block) (ht : t < 16) :
    block (t % 16) = SecureHash.Sha1.schedule m t :=
  h t (by omega) (by omega)

theorem Scheduled.next (h : Scheduled m t block) (ht : t < 16) : Scheduled m (t + 1) block := by
  have hmax : max (t + 1) 16 = max t 16 := by omega
  unfold Scheduled
  rwa [hmax]

theorem Scheduled.blk (h : Scheduled m t block) (ht : 16 ≤ t) :
    SHA1Util.blk block (t % 16) = SecureHash.Sha1.schedule m t := by
  have hring : ∀ d, d ≤ 16 → 1 ≤ d →
      block ((t % 16 + (16 - d)) &&& 15) = SecureHash.Sha1.schedule m (t - d) := by
    intro d hd hpos
    have hplace : (t % 16 + (16 - d)) &&& 15 = (t - d) % 16 := by
      rw [show 15 = 2 ^ 4 - 1 by rfl, Nat.and_two_pow_sub_one_eq_mod]
      omega
    rw [hplace]
    exact h (t - d) (by omega) (by omega)
  have hoff := hring 16 le_rfl (by decide)
  rw [show 15 = 2 ^ 4 - 1 by rfl, Nat.and_two_pow_sub_one_eq_mod] at hoff
  simp only [Nat.sub_self, Nat.add_zero, show 2 ^ 4 = 16 by rfl, Nat.mod_mod] at hoff
  rw [SecureHash.Sha1.schedule_step m ht, SHA1Util.blk, rol_eq _ (by decide), hoff,
    ← hring 3 (by decide) (by decide), ← hring 8 (by decide) (by decide),
    ← hring 14 (by decide) (by decide)]

theorem Scheduled.expand (h : Scheduled m t block) (ht : 16 ≤ t) :
    Scheduled m (t + 1) (Function.update block (t % 16) (SHA1Util.blk block (t % 16))) := by
  intro j hj hle
  by_cases hlast : j = t
  · subst hlast
    rw [Function.update_self, h.blk ht]
  · have hplace : j % 16 ≠ t % 16 := by omega
    rw [Function.update_of_ne hplace]
    exact h j (by omega) (by omega)

def Op.g : Op → Word → Word → Word → Word
  | R0 | R1 => fun w x y => (w &&& (x ^^^ y)) ^^^ y
  | R3 => fun w x y => ((w ||| x) &&& y) ||| (w &&& x)
  | R2 | R4 => fun w x y => w ^^^ x ^^^ y

def Op.k : Op → Word
  | R0 | R1 => 0x5a827999
  | R2 => 0x6ed9eba1
  | R3 => 0x8f1bbcdc
  | R4 => 0xca62c1d6

theorem Op.run_eq (op : Op) (s : Work) (v w x y z : Reg) (i : ℕ) :
    op.run s v w x y z i =
      mix op.g op.k (if op = R0 then s else SHA1Util.expand s i) v w x y z i := by
  cases op <;> simp [Op.run, Op.g, Op.k, SHA1Util.R0, SHA1Util.R1, SHA1Util.R2, SHA1Util.R3,
    SHA1Util.R4]

theorem opAt_g (t : ℕ) (w x y : Word) : (opAt t).g w x y = SecureHash.Sha1.f t w x y := by
  unfold opAt SecureHash.Sha1.f
  split_ifs <;> first | omega | simp [Op.g, choose_eq, majority_eq, parity]

theorem opAt_k (t : ℕ) : (opAt t).k = SecureHash.Sha1.k t := by
  unfold opAt SecureHash.Sha1.k
  split_ifs <;> first | omega | simp [Op.k]

theorem opAt_eq_R0_iff (t : ℕ) : opAt t = .R0 ↔ t < 16 := by
  unfold opAt
  split_ifs <;> simp <;> omega

/-- The words that a round finds in the ring. -/
theorem Scheduled.round (h : Scheduled m t block) :
    let s := if t < 16 then block else Function.update block (t % 16) (SHA1Util.blk block (t % 16))
    s (t % 16) = SecureHash.Sha1.schedule m t ∧ Scheduled m (t + 1) s := by
  dsimp only
  split_ifs with ht
  · exact ⟨h.word ht, h.next ht⟩
  · exact ⟨by simp [h.blk (Nat.not_lt.mp ht)], h.expand (Nat.not_lt.mp ht)⟩

theorem run_calls (s : Work) (h : ∀ i < 16, s.block i = m i) (n : ℕ) :
    view Reg.back^[n] (((List.range n).map callAt).foldl Call.run s).reg =
        SecureHash.Sha1.rounds m (view id s.reg) n ∧
      Scheduled m n (((List.range n).map callAt).foldl Call.run s).block := by
  induction n with
  | zero => exact ⟨rfl, scheduled_start h⟩
  | succ n ih =>
    obtain ⟨hview, hscheduled⟩ := ih
    rw [List.range_succ, List.map_append, List.foldl_append, List.map_singleton, List.foldl_cons,
      List.foldl_nil, SecureHash.Sha1.rounds_succ, ← hview]
    generalize ((List.range n).map callAt).foldl Call.run s = s' at hscheduled
    obtain ⟨hword, hnext⟩ := hscheduled.round
    have hblock : (if opAt n = .R0 then s' else SHA1Util.expand s' (n % 16)).block =
        if n < 16 then s'.block
        else Function.update s'.block (n % 16) (SHA1Util.blk s'.block (n % 16)) := by
      simp only [opAt_eq_R0_iff]
      split_ifs <;> simp [SHA1Util.expand]
    have hreg : (if opAt n = .R0 then s' else SHA1Util.expand s' (n % 16)).reg = s'.reg := by
      split_ifs <;> simp [SHA1Util.expand]
    unfold Call.run callAt
    dsimp only
    rw [Op.run_eq, opAt_k]
    constructor
    · rw [Function.iterate_succ, view_mix (Reg.back_injective.iterate n) (opAt_g n), hreg, hblock,
        hword]
    · unfold mix
      rw [hblock]
      exact hnext

theorem run_all (s : Work) (h : ∀ i < 16, s.block i = m i) :
    view id (calls.foldl Call.run s).reg = SecureHash.Sha1.rounds m (view id s.reg) 80 := by
  have haround : Reg.back^[80] = id := by
    funext r
    cases r <;> decide
  rw [calls_eq, ← (run_calls s h 80).1, haround]

def SHA1Context.chain (ctx : SHA1Context) : SecureHash.Sha1.Chain :=
  ⟨ctx.h0, ctx.h1, ctx.h2, ctx.h3, ctx.h4⟩

theorem bufferToBlock_eq (buffer : Bytes) (block : ℕ → Word) {i : ℕ} (h : i < 16) :
    bufferToBlock buffer block i = SecureHash.wordAt buffer i := by
  unfold bufferToBlock SecureHash.wordAt
  rw [if_pos h, ← word_eq_or]

theorem transform_chain (ctx : SHA1Context) (block : ℕ → Word) (h : ∀ i < 16, block i = m i) :
    (transform ctx block).1.chain =
      let r := SecureHash.Sha1.rounds m ctx.chain 80
      ⟨ctx.h0 + r.a, ctx.h1 + r.b, ctx.h2 + r.c, ctx.h3 + r.d, ctx.h4 + r.e⟩ := by
  have hrounds := run_all { block := block, reg := workingVars ctx } h
  have hstart : view id (workingVars ctx) = ctx.chain := by
    simp [view, workingVars, SHA1Context.chain]
  rw [hstart] at hrounds
  unfold transform
  rw [← hrounds]
  simp only [SHA1Context.chain, view, id_eq]

theorem compressBuffer_chain (s : State) :
    (compressBuffer s).ctx.chain = SecureHash.Sha1.compress s.ctx.chain s.buffer := by
  unfold compressBuffer
  dsimp only
  rw [transform_chain s.ctx _ fun i hi => bufferToBlock_eq s.buffer s.block hi]
  unfold SecureHash.Sha1.compress
  simp only [SHA1Context.chain]

-- The values are named so that no one runs the rounds to compare the two states.
theorem compressBuffer_buffer (s : State) : (compressBuffer s).buffer = s.buffer := by
  obtain ⟨ctx, buffer, block⟩ := s
  exact Eq.refl buffer

theorem compressBuffer_total (s : State) : (compressBuffer s).ctx.total = s.ctx.total := by
  obtain ⟨⟨h0, h1, h2, h3, h4, total⟩, buffer, block⟩ := s
  exact Eq.refl total

section Tail

variable {rest old : Bytes}

theorem finishTail_chain {s : State} {total : ℕ} (hbuffer : s.buffer = rest ++ old)
    (hlength : rest.length + old.length = 64) (hshort : rest.length < 64)
    (htotal : s.ctx.total + rest.length = total) (hmod : total % 64 = rest.length)
    (hfits : total < 2 ^ 61) :
    ∃ s', finishTail s rest.length = .ok s' ∧
      s'.ctx.chain = SecureHash.finish SecureHash.Sha1.compress s.ctx.chain total rest := by
  have hcount : (addTotal s rest.length).ctx.total = total := by
    simp only [addTotal, htotal]
    omega
  have hchain : (addTotal s rest.length).ctx.chain = s.ctx.chain := by
    simp only [addTotal, SHA1Context.chain]
  have hkept : (addTotal s rest.length).buffer = rest ++ old := by
    rw [← hbuffer]
    simp only [addTotal]
  unfold finishTail
  generalize addTotal s rest.length = s₁ at hcount hchain hkept
  dsimp only
  rw [hkept, store_one (by omega), ok_bind]
  by_cases hlong : rest.length > 55
  · rw [if_pos hlong, memset_zeros (by omega), ok_bind]
    have hend : old.drop (63 - rest.length + 1) = [] := List.drop_of_length_le (by omega)
    rw [hend, List.append_nil]
    generalize hs₂ : compressBuffer
      { s₁ with buffer := rest ++ 0x80 :: List.replicate (63 - rest.length) 0 } = s₂
    have hfirst : s₂.ctx.chain = SecureHash.Sha1.compress s₁.ctx.chain
        (rest ++ 0x80 :: List.replicate (63 - rest.length) 0) := by
      rw [← hs₂, compressBuffer_chain]
    have hkept₂ : s₂.buffer = rest ++ 0x80 :: List.replicate (63 - rest.length) 0 := by
      rw [← hs₂, compressBuffer_buffer]
    have hcount₂ : s₂.ctx.total = s₁.ctx.total := by
      rw [← hs₂, compressBuffer_total]
    have hlast : (s₂.buffer.drop 56).length = 8 := by
      simp [hkept₂]
      omega
    have hclear : memset s₂.buffer 0 0 56 = .ok (List.replicate 56 0 ++ s₂.buffer.drop 56) := by
      rw [memset_eq_store, store_front (by simp [hkept₂]; omega), List.length_replicate]
    rw [hclear, ok_bind, store_last (length_toBigEndian64 _) (by simp) hlast, ok_bind, hcount₂, hcount,
      toBigEndian64_eq hfits]
    refine ⟨_, pure_eq_ok _, ?_⟩
    rw [compressBuffer_chain, SecureHash.finish_two _ _ hmod hlong, ← hchain, ← hfirst]
  · rw [if_neg hlong, ok_bind, memset_zeros (by omega), ok_bind, ← List.cons_append,
      ← List.append_assoc, store_last (length_toBigEndian64 _) (by simp; omega) (by simp; omega), ok_bind, hcount,
      toBigEndian64_eq hfits]
    refine ⟨_, pure_eq_ok _, ?_⟩
    rw [compressBuffer_chain, SecureHash.finish_one _ _ hmod (by omega), ← hchain]
    simp

end Tail

theorem encodeLoop_chain {s : State} {input : Bytes} {total : ℕ} (hbuffer : s.buffer.length = 64)
    (htotal : s.ctx.total + input.length = total) (hmod : s.ctx.total % 64 = 0)
    (hfits : total < 2 ^ 61) :
    ∃ s', encodeLoop s input = .ok s' ∧
      s'.ctx.chain = SecureHash.finish SecureHash.Sha1.compress s.ctx.chain total input := by
  induction hn : input.length using Nat.strongRecOn generalizing s input with
  | ind n ih =>
    rw [encodeLoop, store_front (by simp [hbuffer]), ok_bind]
    by_cases hfull : 64 ≤ input.length
    · have htake : (input.take 64).length = 64 := by simp [hfull]
      have hrest : s.buffer.drop (input.take 64).length = [] :=
        List.drop_of_length_le (by omega)
      rw [dif_pos htake, hrest, List.append_nil]
      generalize hs₁ : compressBuffer (addTotal { s with buffer := input.take 64 } 64) = s₁
      have hchain : s₁.ctx.chain = SecureHash.Sha1.compress s.ctx.chain (input.take 64) := by
        rw [← hs₁, compressBuffer_chain]
        simp only [addTotal, SHA1Context.chain]
      have hkept : s₁.buffer = input.take 64 := by
        rw [← hs₁, compressBuffer_buffer]
        simp only [addTotal]
      have hcount : s₁.ctx.total = s.ctx.total + 64 := by
        rw [← hs₁, compressBuffer_total]
        simp only [addTotal]
        omega
      have hdrop : (input.drop 64).length = input.length - 64 := by simp
      have hloop : ∃ s', encodeLoop s₁ (input.drop 64) = .ok s' ∧ s'.ctx.chain =
          SecureHash.finish SecureHash.Sha1.compress s₁.ctx.chain total (input.drop 64) :=
        ih _ (by omega) (by rw [hkept, htake]) (by omega) (by omega) rfl
      rwa [hchain, ← SecureHash.finish_block _ _ hfull] at hloop
    · have htake : input.take 64 = input := List.take_of_length_le (by omega)
      rw [htake, dif_neg (by omega)]
      exact finishTail_chain rfl (by simp [hbuffer]; omega) (by omega) htotal (by omega) hfits

theorem toBigEndian32_toNat (w : Word) : toBigEndian32 w.toNat = SecureHash.octets w := by
  rw [toBigEndian32_eq, BitVec.ofNat_toNat, BitVec.setWidth_eq]

/-- `SHA1Util::encode` computes SHA-1, whatever the arrays hold at first. -/
theorem encode_eq_digest (indet : ℕ → UInt8) (indetBlock : ℕ → BitVec 32) (input : Bytes)
    (h : input.length < 2 ^ 61) :
    encode indet indetBlock input = .ok (SecureHash.Sha1.digest input) := by
  have hloop : ∃ s, encodeLoop ⟨{}, (List.range 64).map indet, indetBlock⟩ input = .ok s ∧
      s.ctx.chain = SecureHash.finish SecureHash.Sha1.compress (SHA1Context.chain {}) input.length
        input :=
    encodeLoop_chain (by simp) (Nat.zero_add _) rfl h
  obtain ⟨s, hs, hchain⟩ := hloop
  unfold encode
  rw [hs, ok_bind, pure_eq_ok]
  unfold SecureHash.Sha1.digest SecureHash.Sha1.Chain.octets
  have hinit : SHA1Context.chain {} = SecureHash.Sha1.init := by
    simp [SHA1Context.chain, SecureHash.Sha1.init]
  rw [hinit] at hchain
  simp [← hchain, SHA1Context.chain, toBigEndian32_toNat]

/-- The first test of the standard. -/
theorem encode_abc : encode (fun _ => 0) (fun _ => 0) (bytes "abc") =
    .ok (SecureHash.Sha1.digest (bytes "abc")) :=
  encode_eq_digest _ _ _ (by decide)

end SHA1Util
end Sese
