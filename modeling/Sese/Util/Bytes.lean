import Mathlib.Data.List.Lex
import Mathlib.Tactic

/-!
# Byte strings

`std::string` and the byte buffers of the library are lists of octets. This
module has the operations of the C and C++ libraries, and of `sese::Util`,
`Endian` and `StringBuilder`, that the HTTP code calls on them, and the type
`Fault` of the ways in which an execution of the code leaves the defined part of
the language.
-/
namespace Sese

abbrev Bytes := List UInt8

-- What is said of the octets of a string is decided along the string, not over all 256 octets.
instance (priority := 2000) decidableForallOctets (p : UInt8 → Prop) [DecidablePred p] (s : Bytes) :
    Decidable (∀ b ∈ s, p b) :=
  List.decidableBAll p s

instance (priority := 2000) decidableForallOctet (p : UInt8 → Prop) [DecidablePred p]
    (o : Option UInt8) : Decidable (∀ b ∈ o, p b) :=
  Option.decidableForallMem o

def bytes (s : String) : Bytes := s.toUTF8.data.toList

/-- Executions that do not come back with a defined result. -/
inductive Fault
  /-- `back` or `pop_front` of an empty `std::deque`. -/
  | emptyDeque
  /-- A shift of a 32 bit integer by 32 bits or more. -/
  | wideShift
  /-- A read past the end of an array. -/
  | overread
  /-- A write past the end of an array. -/
  | overflow
  /-- Use of a null pointer or of an end iterator. -/
  | nullPointer
  /-- A loop that never ends. -/
  | endlessLoop
  /-- The event completes an operation that is not outstanding. -/
  | notOutstanding
  /-- An exception leaves a function that is `noexcept`. -/
  | terminate
  /-- A result that a signed integer has no room for. -/
  | intOverflow
  deriving DecidableEq, Repr

/-- What a `char *` to the string is read as: everything before the first NUL. -/
def cstr (s : Bytes) : Bytes := s.takeWhile (· ≠ 0)

/-- `::tolower` in the "C" locale. -/
def tolower (b : UInt8) : ℕ :=
  if 65 ≤ b.toNat ∧ b.toNat ≤ 90 then b.toNat + 32 else b.toNat

/-- `strcasecmp` compares these two lists lexicographically. -/
def foldCase (s : Bytes) : List ℕ := (cstr s).map tolower

def strcmpDoNotCase (lv rv : Bytes) : Bool := foldCase lv = foldCase rv

theorem cstr_eq_self {s : Bytes} (h : (0 : UInt8) ∉ s) : cstr s = s := by
  induction s with
  | nil => rfl
  | cons b s ih =>
    rw [List.mem_cons, not_or] at h
    have hb : b ≠ 0 := Ne.symm h.1
    simpa [cstr, hb] using ih h.2

/-- `std::strtol` with base 10: white space, a sign, digits; out of range values
are clamped to the range of `long`. -/
def toInteger (s : Bytes) : ℤ :=
  let s := (cstr s).dropWhile fun b => b = 32 ∨ (9 ≤ b.toNat ∧ b.toNat ≤ 13)
  let negative := s.head? = some 45
  let s := if s.head? = some 45 ∨ s.head? = some 43 then s.tail else s
  let digits := s.takeWhile fun b => 48 ≤ b.toNat ∧ b.toNat ≤ 57
  let n : ℕ := digits.foldl (fun n b => 10 * n + (b.toNat - 48)) 0
  if negative then max (-(n : ℤ)) (-2 ^ 63) else min (n : ℤ) (2 ^ 63 - 1)

/-- `static_cast<uint64_t>` of a signed integer. -/
def toUInt64 (i : ℤ) : ℕ := (i % 2 ^ 64).toNat

theorem toUInt64_natCast {n : ℕ} (h : n < 2 ^ 64) : toUInt64 n = n := by
  unfold toUInt64
  omega

/-- `std::to_string` of an unsigned integer. -/
def toDecimal (n : ℕ) : Bytes := bytes (toString n)

/-- The loop of `AbstractStringBuffer::split`: `skip` octets of a separator are
still to be passed over, `piece` is what was read since the last one, reversed. -/
def splitLoop (sub : Bytes) : ℕ → Bytes → Bytes → List Bytes
  -- the last piece is taken as a C string, and not at all when it is empty
  | _, piece, [] => if piece.isEmpty then [] else [cstr piece.reverse]
  | skip + 1, piece, _ :: text => splitLoop sub skip piece text
  | 0, piece, b :: text =>
    if sub.isPrefixOf (b :: text) then piece.reverse :: splitLoop sub (sub.length - 1) [] text
    else splitLoop sub 0 (b :: piece) text

def split (text sub : Bytes) : List Bytes := splitLoop sub 0 [] text

/-- The loop of `split` on the contents of a buffer, whose last piece is not read as a C
string. -/
def piecesLoop (sub : Bytes) : ℕ → Bytes → Bytes → List Bytes
  | _, piece, [] => if piece.isEmpty then [] else [piece.reverse]
  | skip + 1, piece, _ :: text => piecesLoop sub skip piece text
  | 0, piece, b :: text =>
    if sub.isPrefixOf (b :: text) then piece.reverse :: piecesLoop sub (sub.length - 1) [] text
    else piecesLoop sub 0 (b :: piece) text

/-- The member `split` of `AbstractStringBuffer`. -/
def pieces (text sub : Bytes) : List Bytes := piecesLoop sub 0 [] text

def toBigEndian16 (n : ℕ) : Bytes := [UInt8.ofNat (n / 2 ^ 8), UInt8.ofNat n]

def toBigEndian32 (n : ℕ) : Bytes :=
  [UInt8.ofNat (n / 2 ^ 24), UInt8.ofNat (n / 2 ^ 16), UInt8.ofNat (n / 2 ^ 8), UInt8.ofNat n]

/-- The integer stored in the octets, the first being the most significant. -/
def fromBigEndian (s : Bytes) : ℕ := s.foldl (fun n b => 2 ^ 8 * n + b.toNat) 0

theorem fromBigEndian_toBigEndian32 {n : ℕ} (h : n < 2 ^ 32) :
    fromBigEndian (toBigEndian32 n) = n := by
  simp only [fromBigEndian, toBigEndian32, List.foldl_cons, List.foldl_nil, UInt8.toNat_ofNat']
  omega

end Sese
