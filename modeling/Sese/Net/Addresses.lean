import Sese.Foundation.Outcome
import Sese.Util.Bytes

/-!
# Subnets

`getSubnetMask`, `getNetworkAddress` and `getBroadcastAddress` of `IPv4Address` and of
`IPv6Address`. An address is kept as its octets in memory, which are in network order; what an
integer operation does with the 32 bits of an IPv4 address it does with each of the octets.
-/
namespace Sese.Net

open Foundation

/-- `CreateMask<T>` for a type of `size` octets: one as an `int` is shifted, and the difference to
one has to be an `int` too. -/
def createMask (size bits : ℕ) : Except Fault ℕ :=
  let shift := size * 8 - bits
  if 32 ≤ shift then .error .wideShift
  else
    let mask := (1#32 <<< shift).toInt - 1
    if mask < -2 ^ 31 then .error .intOverflow else .ok (mask % 2 ^ (8 * size)).toNat

/-- The octets with an operation on those that stand at the same place. -/
def combine {n : ℕ} (op : UInt8 → UInt8 → UInt8) (a b : Vector UInt8 n) : Vector UInt8 n :=
  Vector.zipWith op a b

structure IPv4Address where
  address : Vector UInt8 4
  port : UInt16 := 0
  deriving DecidableEq, Repr

namespace IPv4Address

/-- The octets of `ToBigEndian32(CreateMask<uint32_t>(prefix_len))`. -/
def hostMask (prefix_len : ℕ) : Except Fault (Vector UInt8 4) := do
  let mask ← createMask 4 prefix_len
  .ok #v[.ofNat (mask / 2 ^ 24), .ofNat (mask / 2 ^ 16), .ofNat (mask / 2 ^ 8), .ofNat mask]

/-- `getBroadcastAddress`; `none` is the null pointer. -/
def getBroadcastAddress (addr : IPv4Address) (prefix_len : ℕ) : Except Fault (Option IPv4Address) :=
  if 32 < prefix_len then .ok none
  else do
    let mask ← hostMask prefix_len
    .ok (some { addr with address := combine (· ||| ·) addr.address mask })

def getNetworkAddress (addr : IPv4Address) (prefix_len : ℕ) : Except Fault (Option IPv4Address) :=
  if 32 < prefix_len then .ok none
  else do
    let mask ← hostMask prefix_len
    .ok (some { addr with address := combine (· &&& ·) addr.address mask })

def getSubnetMask (_ : IPv4Address) (prefix_len : ℕ) : Except Fault (Option IPv4Address) :=
  if 32 < prefix_len then .ok none
  else do
    let mask ← hostMask prefix_len
    .ok (some { address := mask.map (~~~ ·) })

end IPv4Address

structure IPv6Address where
  address : Vector UInt8 16
  port : UInt16 := 0
  deriving DecidableEq, Repr

namespace IPv6Address

def modifyOctet (a : Vector UInt8 16) (i : ℕ) (f : UInt8 → UInt8) :
    Except Fault (Vector UInt8 16) :=
  if h : i < 16 then .ok (a.set i (f a[i])) else .error .overflow

/-- A loop sets the octets from one place on up to another one. -/
def fillOctets (a : Vector UInt8 16) (first last : ℕ) (value : UInt8) : Vector UInt8 16 :=
  a.mapIdx fun i b => if first ≤ i ∧ i < last then value else b

def getBroadcastAddress (addr : IPv6Address) (prefix_len : ℕ) : Except Fault IPv6Address := do
  let mask ← createMask 1 (prefix_len % 8)
  let a ← modifyOctet addr.address (prefix_len / 8) (· ||| .ofNat mask)
  .ok { addr with address := fillOctets a (prefix_len / 8 + 1) 16 0xFF }

def getNetworkAddress (addr : IPv6Address) (prefix_len : ℕ) : Except Fault IPv6Address := do
  let mask ← createMask 1 (prefix_len % 8)
  let a ← modifyOctet addr.address (prefix_len / 8) (· &&& .ofNat mask)
  .ok { addr with address := fillOctets a (prefix_len / 8 + 1) 16 0 }

def getSubnetMask (_ : IPv6Address) (prefix_len : ℕ) : Except Fault IPv6Address := do
  let mask ← createMask 1 (prefix_len % 8)
  let a ← modifyOctet (Vector.replicate 16 0) (prefix_len / 8) fun _ => ~~~ .ofNat mask
  .ok { address := fillOctets a 0 (prefix_len / 8) 0xFF }

end IPv6Address

/-- `IPAddress`, which the two families are derived from. -/
inductive IPAddress
  | v4 (addr : IPv4Address)
  | v6 (addr : IPv6Address)
  deriving DecidableEq, Repr

/-- The octets in network order. -/
def IPv4Address.octets (addr : IPv4Address) : Bytes := addr.address.toList

def IPv6Address.octets (addr : IPv6Address) : Bytes := addr.address.toList

def IPAddress.octets : IPAddress → Bytes
  | .v4 addr => addr.octets
  | .v6 addr => addr.octets

theorem IPv4Address.length_octets (addr : IPv4Address) : addr.octets.length = 4 :=
  Vector.length_toList

theorem IPv6Address.length_octets (addr : IPv6Address) : addr.octets.length = 16 :=
  Vector.length_toList

theorem IPAddress.length_octets_lt (addr : IPAddress) : addr.octets.length < 65536 := by
  cases addr with
  | v4 addr =>
    rw [octets, addr.length_octets]
    decide
  | v6 addr =>
    rw [octets, addr.length_octets]
    decide

/-- A bit of an address, the first being the most significant one of the first octet. -/
def bit {n : ℕ} (a : Vector UInt8 n) (j : Fin (8 * n)) : Bool :=
  (a.get ⟨j.val / 8, by omega⟩).toNat.testBit (7 - j.val % 8)

/-- What is left of an octet behind the first `r` bits. -/
def hostOctet (r : ℕ) : UInt8 := .ofNat (2 ^ (8 - r) - 1)

/-- How many bits of an octet are among the first `p` bits of the address. -/
def netBits (p i : ℕ) : ℕ := min 8 (p - 8 * i)

/-- The octets behind the first `p` bits. -/
def hostOctets (n p : ℕ) : Vector UInt8 n := Vector.ofFn fun i => hostOctet (netBits p i)

theorem testBit_hostOctet :
    ∀ r ≤ 8, ∀ k < 8, (~~~ hostOctet r).toNat.testBit (7 - k) = decide (k < r) := by
  decide

/-- The complement has exactly the first `p` bits set. -/
theorem bit_hostOctets {n p : ℕ} (j : Fin (8 * n)) :
    bit ((hostOctets n p).map (~~~ ·)) j = decide (j.val < p) := by
  have hbit := testBit_hostOctet (netBits p (j.val / 8)) (min_le_left _ _) (j.val % 8)
    (Nat.mod_lt _ (by decide))
  have hoctet : bit ((hostOctets n p).map (~~~ ·)) j =
      (~~~ hostOctet (netBits p (j.val / 8))).toNat.testBit (7 - j.val % 8) := by
    have hget : ((hostOctets n p).map (~~~ ·)).get ⟨j.val / 8, by omega⟩ =
        ((hostOctets n p).map (~~~ ·))[j.val / 8] := rfl
    rw [bit, hget]
    simp [hostOctets]
  rw [hoctet, hbit, decide_eq_decide, netBits]
  omega

theorem and_host_iff (x h : UInt8) : x &&& h = x &&& ~~~ h ↔ x = 0 := by
  constructor
  · intro heq
    rw [← UInt8.toBitVec_inj] at heq ⊢
    ext i hi
    have hbit := congrArg (fun v : BitVec 8 => v[i]) heq
    simp only [UInt8.toBitVec_and, UInt8.toBitVec_not, BitVec.getElem_and, BitVec.getElem_not] at hbit
    revert hbit
    cases x.toBitVec[i] <;> cases h.toBitVec[i] <;> simp
  · rintro rfl
    simp

theorem or_host (x h : UInt8) : x &&& ~~~ h ||| ~~~ ~~~ h = x ||| h := by
  rw [← UInt8.toBitVec_inj]
  ext i hi
  simp only [UInt8.toBitVec_or, UInt8.toBitVec_and, UInt8.toBitVec_not, BitVec.getElem_or,
    BitVec.getElem_and, BitVec.getElem_not]
  cases x.toBitVec[i] <;> cases h.toBitVec[i] <;> rfl

/-- The three results for a prefix of `p` bits. -/
structure Subnet {n : ℕ} (p : ℕ) (a mask network broadcast : Vector UInt8 n) : Prop where
  bits : ∀ j, bit mask j = decide (j.val < p)
  network_eq : network = combine (· &&& ·) a mask
  broadcast_eq : broadcast = combine (· ||| ·) network (mask.map (~~~ ·))

/-- The functions return addresses, and these are the three results. -/
def IPv4Address.Subnets (addr : IPv4Address) (prefix_len : ℕ) : Prop :=
  ∃ mask network broadcast, addr.getSubnetMask prefix_len = .ok (some mask) ∧
    addr.getNetworkAddress prefix_len = .ok (some network) ∧
    addr.getBroadcastAddress prefix_len = .ok (some broadcast) ∧
    Subnet prefix_len addr.address mask.address network.address broadcast.address

def IPv6Address.Subnets (addr : IPv6Address) (prefix_len : ℕ) : Prop :=
  ∃ mask network broadcast, addr.getSubnetMask prefix_len = .ok mask ∧
    addr.getNetworkAddress prefix_len = .ok network ∧
    addr.getBroadcastAddress prefix_len = .ok broadcast ∧
    Subnet prefix_len addr.address mask.address network.address broadcast.address

@[simp] theorem getElem_combine {n : ℕ} (op : UInt8 → UInt8 → UInt8) (a b : Vector UInt8 n) {i : ℕ}
    (h : i < n) : (combine op a b)[i] = op a[i] b[i] := Vector.getElem_zipWith h

@[simp] theorem getElem_hostOctets {n p i : ℕ} (h : i < n) :
    (hostOctets n p)[i] = hostOctet (netBits p i) := Vector.getElem_ofFn h

theorem subnet_iff {n p : ℕ} {a network broadcast : Vector UInt8 n} :
    Subnet p a ((hostOctets n p).map (~~~ ·)) network broadcast ↔
      ∀ i (h : i < n), network[i] = a[i] &&& ~~~ hostOctet (netBits p i) ∧
        broadcast[i] = a[i] ||| hostOctet (netBits p i) := by
  constructor
  · rintro ⟨-, rfl, rfl⟩ i h
    simp only [getElem_combine, Vector.getElem_map, getElem_hostOctets, or_host, and_self]
  · intro h
    refine ⟨bit_hostOctets, ?_, ?_⟩
    · ext i hi
      simp only [(h i hi).1, getElem_combine, Vector.getElem_map, getElem_hostOctets]
    · ext i hi
      rw [(h i hi).2, ← or_host]
      simp only [(h i hi).1, getElem_combine, Vector.getElem_map, getElem_hostOctets]

namespace IPv4Address

/-- The shift is by less than 32 bits from the prefix 1 on, and what one is subtracted from is
positive from the prefix 2 on. -/
theorem hostMask_eq : ∀ p ≤ 32,
    hostMask p = if 2 ≤ p then .ok (hostOctets 4 p)
      else .error (if p = 0 then .wideShift else .intOverflow) := by
  decide

/-- `getNetworkAddress` keeps the bits behind the prefix. -/
theorem subnets_iff (addr : IPv4Address) {p : ℕ} (hp : p ≤ 32) :
    addr.Subnets p ↔ 2 ≤ p ∧ addr.address = Vector.replicate 4 0 := by
  have hmask := hostMask_eq p hp
  unfold Subnets getSubnetMask getNetworkAddress getBroadcastAddress
  rw [if_neg (by omega), if_neg (by omega), if_neg (by omega)]
  by_cases hlong : 2 ≤ p
  · rw [hmask, if_pos hlong]
    simp only [ok_bind, Except.ok.injEq, Option.some.injEq, hlong, true_and]
    constructor
    · rintro ⟨mask, network, broadcast, rfl, rfl, rfl, hsubnet⟩
      ext i hi
      have hnetwork := (subnet_iff.mp hsubnet i hi).1
      simp only [getElem_combine, getElem_hostOctets, and_host_iff] at hnetwork
      rw [hnetwork]
      simp
    · intro hzero
      refine ⟨_, _, _, rfl, rfl, rfl, subnet_iff.mpr fun i hi => ?_⟩
      simp [hzero]
  · simp [hmask, hlong]

end IPv4Address

namespace IPv6Address

theorem createMask_octet : ∀ r < 8, createMask 1 r = .ok (2 ^ (8 - r) - 1) := by decide

theorem getElem_fillOctets (a : Vector UInt8 16) (first last : ℕ) (value : UInt8) {i : ℕ}
    (h : i < 16) :
    (fillOctets a first last value)[i] = if first ≤ i ∧ i < last then value else a[i] := by
  simp [fillOctets]

theorem hostOctet_cases (p i : ℕ) :
    hostOctet (netBits p i) =
      if i < p / 8 then 0 else if i = p / 8 then hostOctet (p % 8) else 0xFF := by
  have hbits : netBits p i = if i < p / 8 then 8 else if i = p / 8 then p % 8 else 0 := by
    rw [netBits]
    split_ifs <;> omega
  rw [hbits]
  split_ifs <;> rfl

theorem getSubnetMask_eq (addr : IPv6Address) {p : ℕ} (hp : p / 8 < 16) :
    addr.getSubnetMask p = .ok { address := (hostOctets 16 p).map (~~~ ·) } := by
  rw [getSubnetMask, createMask_octet _ (Nat.mod_lt _ (by decide)), ok_bind, modifyOctet, dif_pos hp,
    ok_bind, Except.ok.injEq, IPv6Address.mk.injEq]
  refine ⟨?_, rfl⟩
  ext i hi
  rw [getElem_fillOctets, Vector.getElem_map, getElem_hostOctets, hostOctet_cases, Vector.getElem_set]
  rcases lt_trichotomy i (p / 8) with hlt | rfl | hgt
  · rw [if_pos ⟨Nat.zero_le i, hlt⟩, if_pos hlt]
    rfl
  · rw [if_neg (by omega), if_pos rfl, if_neg (lt_irrefl _), if_pos rfl]
    rfl
  · rw [if_neg (by omega), if_neg (by omega), if_neg (by omega), if_neg (by omega),
      Vector.getElem_replicate]
    rfl

/-- What an operation with the mask of the octet in which the prefix ends, and the octets behind it,
leave of an address. -/
theorem getElem_behind (a : Vector UInt8 16) (op : UInt8 → UInt8) (value : UInt8) {q i : ℕ}
    (hq : q < 16) (hi : i < 16) :
    (fillOctets (a.set q (op a[q])) (q + 1) 16 value)[i] =
      if i < q then a[i] else if i = q then op a[i] else value := by
  rw [getElem_fillOctets, Vector.getElem_set]
  rcases lt_trichotomy i q with hlt | rfl | hgt
  · rw [if_neg (by omega), if_neg (by omega), if_pos hlt]
  · rw [if_neg (by omega), if_pos rfl, if_neg (lt_irrefl _), if_pos rfl]
  · rw [if_pos (by omega), if_neg (by omega), if_neg (by omega)]

theorem getNetworkAddress_eq (addr : IPv6Address) {p : ℕ} (hp : p / 8 < 16) :
    addr.getNetworkAddress p = .ok { addr with
      address := fillOctets (addr.address.set (p / 8) (addr.address[p / 8] &&& hostOctet (p % 8)))
        (p / 8 + 1) 16 0 } := by
  rw [getNetworkAddress, createMask_octet _ (Nat.mod_lt _ (by decide)), ok_bind, modifyOctet,
    dif_pos hp, ok_bind, hostOctet]

theorem getBroadcastAddress_eq (addr : IPv6Address) {p : ℕ} (hp : p / 8 < 16) :
    addr.getBroadcastAddress p = .ok { addr with
      address := fillOctets (addr.address.set (p / 8) (addr.address[p / 8] ||| hostOctet (p % 8)))
        (p / 8 + 1) 16 0xFF } := by
  rw [getBroadcastAddress, createMask_octet _ (Nat.mod_lt _ (by decide)), ok_bind, modifyOctet,
    dif_pos hp, ok_bind, hostOctet]

/-- The octet behind the address is changed where the prefix is the whole address. -/
theorem not_subnets (addr : IPv6Address) {p : ℕ} (hp : ¬ p / 8 < 16) : ¬ addr.Subnets p := by
  rintro ⟨mask, network, broadcast, hmask, -⟩
  rw [getSubnetMask, createMask_octet _ (Nat.mod_lt _ (by decide)), ok_bind, modifyOctet,
    dif_neg hp] at hmask
  cases hmask

theorem subnets_iff (addr : IPv6Address) (p : ℕ) :
    addr.Subnets p ↔ ∃ h : p / 8 < 16, addr.address[p / 8] = 0 := by
  by_cases hp : p / 8 < 16
  · have hbehind := getElem_behind addr.address
    unfold Subnets
    rw [getSubnetMask_eq addr hp, getNetworkAddress_eq addr hp, getBroadcastAddress_eq addr hp]
    constructor
    · rintro ⟨mask, network, broadcast, ⟨⟩, ⟨⟩, ⟨⟩, hsubnet⟩
      have hnetwork := (subnet_iff.mp hsubnet (p / 8) hp).1
      rw [hbehind (· &&& hostOctet (p % 8)) 0 hp hp, hostOctet_cases, if_neg (lt_irrefl _), if_pos rfl,
        if_neg (lt_irrefl _), if_pos rfl] at hnetwork
      exact ⟨hp, (and_host_iff _ _).mp hnetwork⟩
    · rintro ⟨_, hzero⟩
      refine ⟨_, _, _, rfl, rfl, rfl, subnet_iff.mpr fun i hi => ?_⟩
      rw [hbehind (· &&& hostOctet (p % 8)) 0 hp hi, hbehind (· ||| hostOctet (p % 8)) 0xFF hp hi,
        hostOctet_cases]
      rcases lt_trichotomy i (p / 8) with hlt | rfl | hgt
      · simp [hlt]
      · rw [if_neg (lt_irrefl _), if_pos rfl, if_neg (lt_irrefl _), if_pos rfl, if_neg (lt_irrefl _),
          if_pos rfl]
        exact ⟨(and_host_iff _ _).mpr hzero, rfl⟩
      · rw [if_neg (not_lt_of_gt hgt), if_neg hgt.ne', if_neg (not_lt_of_gt hgt), if_neg hgt.ne',
          if_neg (not_lt_of_gt hgt), if_neg hgt.ne']
        exact ⟨UInt8.and_zero.symm, UInt8.or_neg_one.symm⟩
  · exact iff_of_false (not_subnets addr hp) fun ⟨h, _⟩ => hp h

end IPv6Address

/-- The mask of the host bits is what `getNetworkAddress` applies: the three results are right where
the address has no bit that it could keep or lose. -/
theorem families_subnets_iff (v4 : IPv4Address) (v6 : IPv6Address) (p : ℕ) :
    (p ≤ 32 → (v4.Subnets p ↔ 2 ≤ p ∧ v4.address = Vector.replicate 4 0)) ∧
      (p ≤ 128 → (v6.Subnets p ↔ ∃ h : p / 8 < 16, v6.address[p / 8] = 0)) :=
  ⟨v4.subnets_iff, fun _ => v6.subnets_iff p⟩

theorem families_subnets_zero :
    IPv4Address.Subnets ⟨#v[0, 0, 0, 0], 80⟩ 24 ∧
      IPv6Address.Subnets ⟨#v[0x20, 1, 0xD, 0, 0, 0, 0, 0, 0, 0, 0, 0, 0, 0, 0, 1], 80⟩ 24 := by
  obtain ⟨hv4, hv6⟩ := families_subnets_iff ⟨#v[0, 0, 0, 0], 80⟩
    ⟨#v[0x20, 1, 0xD, 0, 0, 0, 0, 0, 0, 0, 0, 0, 0, 0, 0, 1], 80⟩ 24
  exact ⟨(hv4 (by decide)).mpr ⟨by decide, rfl⟩, (hv6 (by decide)).mpr ⟨by decide, rfl⟩⟩

/-- The network of 127.0.0.1 with 24 bits is 0.0.0.1. -/
theorem localhost_not_subnets :
    ¬ ((∀ (addr : IPv4Address) (p : ℕ), p ≤ 32 → addr.Subnets p) ∧
      ∀ (addr : IPv6Address) (p : ℕ), p ≤ 128 → addr.Subnets p) := by
  rintro ⟨hv4, -⟩
  obtain ⟨-, hzero⟩ :=
    (IPv4Address.subnets_iff ⟨#v[127, 0, 0, 1], 0⟩ (by decide)).mp (hv4 _ 24 (by decide))
  revert hzero
  decide

end Sese.Net
