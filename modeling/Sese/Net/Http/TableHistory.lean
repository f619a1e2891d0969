import Sese.Foundation.Runs
import Sese.Foundation.Outcome
import Sese.Foundation.Queues
import Sese.Net.Http.DynamicTable

/-!
# Histories of a dynamic table

A history is a sequence of `set` and `resize` calls on a fresh table. The loop
that makes room subtracts the charge of the newest entry in every round, but
removes the oldest entry; `evict_eq_ok` says what it leaves after `k` rounds.

The counter `size` is the sum of the charges of the entries as long as every
eviction removes what it subtracts.

In the table of RFC 7541, section 4, an entry is charged 32 octets more than its name
and its value, the charge of an entry that is evicted is what was charged for it, and
an entry that is too large empties the table. After the same calls the two tables show
the same entries as long as both evict the same number of them.
-/
namespace Sese.Net.Http

open Foundation

namespace DynamicTable

/-- A call that changes the table; `size_t` is a 64 bit integer. -/
inductive Op
  | set (key value : Bytes)
  | resize (max : UInt64)
  deriving DecidableEq

def fresh (max : UInt64) : DynamicTable := { max := max.toNat }

def apply (t : DynamicTable) : Op → Except Fault DynamicTable
  | .set key value => do
    let r ← t.set key value
    return r.1
  | .resize max => t.resize max.toNat

def charge (e : Bytes × Bytes) : ℕ := entrySize e % 2 ^ 64

/-- The charge of the entry at the back, which every round subtracts. -/
def newest (queue : List (Bytes × Bytes)) : ℕ := (queue.getLast?.map charge).getD 0

/-- `set` returns false without a look at the entries. -/
def Refuses (t : DynamicTable) (e : Bytes × Bytes) : Prop :=
  e.1.length > 2 ^ 64 - 1 - e.2.length ∨ charge e > t.max

/-- The counter after `j` rounds that subtract `b`, in 64 bit arithmetic. -/
def after (b size j : ℕ) : ℕ := ((size - j * b : ℤ) % 2 ^ 64).toNat

/-- The loop makes `k` rounds on `n` entries when every round subtracts `b`. -/
structure Rounds (max addition b size n k : ℕ) : Prop where
  le : k ≤ n
  stops : (after b size k + addition) % 2 ^ 64 ≤ max
  goesOn : ∀ j < k, max < (after b size j + addition) % 2 ^ 64

theorem after_zero {b size : ℕ} (h : size < 2 ^ 64) : after b size 0 = size := by
  simp only [after]
  omega

theorem after_round {b size : ℕ} (hb : b < 2 ^ 64) (j : ℕ) :
    after b ((size + 2 ^ 64 - b) % 2 ^ 64) j = after b size (j + 1) := by
  have hsucc : ((j + 1 : ℕ) : ℤ) * b = j * b + b := by push_cast; ring
  simp only [after, hsucc]
  generalize (j : ℤ) * b = y
  congr 1
  omega

theorem after_eq_sub {b size j : ℕ} (hsize : size < 2 ^ 64) (h : j * b ≤ size) :
    after b size j = size - j * b := by
  simp only [after]
  have : ((j * b : ℕ) : ℤ) = (j : ℤ) * b := by push_cast; rfl
  rw [← this]
  omega

theorem after_add_mod {addition b size j k : ℕ} (hsum : size + addition < 2 ^ 64)
    (hkb : k * b ≤ size) (hj : j ≤ k) :
    j * b ≤ size ∧ (after b size j + addition) % 2 ^ 64 = size - j * b + addition := by
  have hjb : j * b ≤ size := (Nat.mul_le_mul_right _ hj).trans hkb
  exact ⟨hjb, by rw [after_eq_sub (by omega) hjb, Nat.mod_eq_of_lt (by omega)]⟩

theorem Rounds.round {max addition b size n k : ℕ} (hb : b < 2 ^ 64) (hsize : size < 2 ^ 64)
    (hbig : max < (size + addition) % 2 ^ 64) :
    Rounds max addition b size (n + 1) (k + 1) ↔
      Rounds max addition b ((size + 2 ^ 64 - b) % 2 ^ 64) n k := by
  constructor
  · intro h
    constructor
    · exact Nat.le_of_succ_le_succ h.le
    · rw [after_round hb]
      exact h.stops
    · intro j hj
      rw [after_round hb]
      exact h.goesOn (j + 1) (Nat.succ_lt_succ hj)
  · intro h
    constructor
    · exact Nat.succ_le_succ h.le
    · rw [← after_round hb]
      exact h.stops
    · intro j hj
      cases j with
      | zero => rwa [after_zero hsize]
      | succ j =>
        rw [← after_round hb]
        exact h.goesOn j (Nat.lt_of_succ_lt_succ hj)

theorem Rounds.none {max addition b size n k : ℕ} (hsize : size < 2 ^ 64)
    (hsmall : ¬ max < (size + addition) % 2 ^ 64) :
    Rounds max addition b size n k ↔ k = 0 := by
  constructor
  · intro h
    by_contra hk
    have := h.goesOn 0 (Nat.pos_of_ne_zero hk)
    rw [after_zero hsize] at this
    exact hsmall this
  · rintro rfl
    constructor
    · exact Nat.zero_le n
    · rw [after_zero hsize]
      exact not_lt.mp hsmall
    · intro j hj
      exact absurd hj (Nat.not_lt_zero j)

/-- What the loop leaves: after `k` rounds the `k` oldest entries are gone, and the
charge `b` of the newest was subtracted `k` times. -/
theorem evict_eq_ok {max addition b size : ℕ} {queue : List (Bytes × Bytes)}
    {r : ℕ × List (Bytes × Bytes)} (hsize : size < 2 ^ 64)
    (hb : ∀ h : queue ≠ [], charge (queue.getLast h) = b) :
    evict max addition size queue = .ok r ↔
      ∃ k, Rounds max addition b size queue.length k ∧ r = (after b size k, queue.drop k) := by
  induction queue generalizing size with
  | nil =>
    rw [evict]
    split_ifs with hbig
    · simp only [false_iff, not_exists, not_and]
      intro k hk
      have hzero : k = 0 := Nat.le_zero.mp hk.le
      have hstops := hk.stops
      rw [hzero, after_zero hsize] at hstops
      omega
    · simp only [Rounds.none hsize hbig, exists_eq_left, after_zero hsize, List.drop_zero]
      simp [eq_comm]
  | cons e queue ih =>
    rw [evict]
    split_ifs with hbig
    · have hback : entrySize ((e :: queue).getLast (List.cons_ne_nil e queue)) % 2 ^ 64 = b :=
        hb (List.cons_ne_nil e queue)
      have hlt : b < 2 ^ 64 := hback ▸ Nat.mod_lt _ (by norm_num)
      have hrest : ∀ h : queue ≠ [], charge (queue.getLast h) = b := by
        intro h
        rw [← hb (List.cons_ne_nil e queue), List.getLast_cons h]
      simp only [hback]
      rw [ih (Nat.mod_lt _ (by norm_num)) hrest]
      constructor
      · rintro ⟨k, hk, rfl⟩
        exact ⟨k + 1, (Rounds.round hlt hsize hbig).mpr hk, by rw [after_round hlt]; rfl⟩
      · rintro ⟨k, hk, rfl⟩
        cases k with
        | zero =>
          have hstops := hk.stops
          rw [after_zero hsize] at hstops
          omega
        | succ k =>
          exact ⟨k, (Rounds.round hlt hsize hbig).mp hk, by rw [after_round hlt]; rfl⟩
    · simp only [Rounds.none hsize hbig, exists_eq_left, after_zero hsize, List.drop_zero]
      simp [eq_comm]

theorem charge_getLast (queue : List (Bytes × Bytes)) (h : queue ≠ []) :
    charge (queue.getLast h) = newest queue := by
  simp [newest, List.getLast?_eq_some_getLast h]

/-- The counter is the sum of the charges, and it is within the maximum. -/
structure Accounted (t : DynamicTable) : Prop where
  size_eq : t.size = total charge t.queue
  size_le : t.size ≤ t.max
  max_lt : t.max < 2 ^ 64

/-- No subtraction of the loop wraps around, and it never meets an empty queue. -/
def NoWrap (max addition : ℕ) : ℕ → List (Bytes × Bytes) → Prop
  | size, [] => (size + addition) % 2 ^ 64 ≤ max
  | size, e :: queue =>
    (size + addition) % 2 ^ 64 > max →
      newest (e :: queue) ≤ size ∧ NoWrap max addition (size - newest (e :: queue)) queue

def Safe (t : DynamicTable) : Op → Prop
  | .set key value =>
    t.Refuses (key, value) ∨ NoWrap t.max (charge (key, value)) t.size t.queue
  | .resize max => NoWrap max.toNat 0 t.size t.queue

/-- The entries that leave the table from its front were charged as much as is
subtracted for them, which is `k` times the charge of the newest entry; `k` is the
least number with which `size + addition` comes down to `max`. -/
def BalancedEviction (t : DynamicTable) (max addition : ℕ) : Prop :=
  ∃ k ≤ t.queue.length, t.size + addition ≤ max + k * newest t.queue ∧
    (∀ j < k, max + j * newest t.queue < t.size + addition) ∧
    total charge (t.queue.take k) = k * newest t.queue

/-- The evictions of a call are balanced, and its addition does not wrap around. -/
def Balanced (t : DynamicTable) : Op → Prop
  | .set key value => t.Refuses (key, value) ∨
      t.size + charge (key, value) < 2 ^ 64 ∧ t.BalancedEviction t.max (charge (key, value))
  | .resize max => t.BalancedEviction max.toNat 0

theorem noWrap_iff {max addition b size : ℕ} {queue : List (Bytes × Bytes)}
    (hsize : size < 2 ^ 64) (hb : ∀ h : queue ≠ [], charge (queue.getLast h) = b) :
    NoWrap max addition size queue ↔
      ∃ k, Rounds max addition b size queue.length k ∧ k * b ≤ size := by
  induction queue generalizing size with
  | nil =>
    rw [NoWrap]
    constructor
    · intro h
      exact ⟨0, (Rounds.none hsize (not_lt.mpr h)).mpr rfl, by omega⟩
    · rintro ⟨k, hk, -⟩
      have hstops := hk.stops
      rwa [Nat.le_zero.mp hk.le, after_zero hsize] at hstops
  | cons e queue ih =>
    have hback : newest (e :: queue) = b := by
      rw [← hb (List.cons_ne_nil e queue), charge_getLast]
    have hrest : ∀ h : queue ≠ [], charge (queue.getLast h) = b := by
      intro h
      rw [← hb (List.cons_ne_nil e queue), List.getLast_cons h]
    have hlt : b < 2 ^ 64 := by
      rw [← hb (List.cons_ne_nil e queue)]
      exact Nat.mod_lt _ (by norm_num)
    rw [NoWrap, hback]
    by_cases hbig : max < (size + addition) % 2 ^ 64
    · simp only [gt_iff_lt, hbig, true_imp_iff]
      constructor
      · rintro ⟨hle, hrec⟩
        obtain ⟨k, hk, hkb⟩ := (ih (by omega) hrest).mp hrec
        have hround : (size + 2 ^ 64 - b) % 2 ^ 64 = size - b := by omega
        refine ⟨k + 1, (Rounds.round hlt hsize hbig).mpr (hround ▸ hk), ?_⟩
        rw [Nat.succ_mul]
        omega
      · rintro ⟨k, hk, hkb⟩
        cases k with
        | zero =>
          have hstops := hk.stops
          rw [after_zero hsize] at hstops
          omega
        | succ k =>
          rw [Nat.succ_mul] at hkb
          have hle : b ≤ size := by omega
          have hround : (size + 2 ^ 64 - b) % 2 ^ 64 = size - b := by omega
          have hk := (Rounds.round hlt hsize hbig).mp hk
          rw [hround] at hk
          exact ⟨hle, (ih (by omega) hrest).mpr ⟨k, hk, by omega⟩⟩
    · simp only [gt_iff_lt, hbig, false_imp_iff, true_iff]
      exact ⟨0, (Rounds.none hsize hbig).mpr rfl, by omega⟩

theorem evict_le {max addition size : ℕ} {queue : List (Bytes × Bytes)}
    {r : ℕ × List (Bytes × Bytes)} (hsum : size + addition < 2 ^ 64)
    (hsafe : NoWrap max addition size queue) (hr : evict max addition size queue = .ok r) :
    r.1 ≤ size ∧ r.1 + addition ≤ max := by
  have hlt : size < 2 ^ 64 := by omega
  have hb := charge_getLast queue
  obtain ⟨k, hk, hkb⟩ := (noWrap_iff hlt hb).mp hsafe
  rw [(evict_eq_ok hlt hb).mpr ⟨k, hk, rfl⟩] at hr
  cases hr
  have hstops := hk.stops
  rw [(after_add_mod hsum hkb le_rfl).2] at hstops
  simp only [after_eq_sub hlt hkb]
  omega

/-- On an accounted table with room for the sum, balanced evictions are those that
are safe and leave the counter equal to the charges of what is left. -/
theorem balancedEviction_iff {t : DynamicTable} {max addition : ℕ}
    (hsize : t.size = total charge t.queue) (hsum : t.size + addition < 2 ^ 64) :
    t.BalancedEviction max addition ↔ NoWrap max addition t.size t.queue ∧
      ∃ r, evict max addition t.size t.queue = .ok r ∧ r.1 = total charge r.2 := by
  have hlt : t.size < 2 ^ 64 := by omega
  have hb := charge_getLast t.queue
  have hsplit : ∀ k, total charge (t.queue.take k) + total charge (t.queue.drop k) = t.size := by
    intro k
    rw [hsize, total_take_add_drop]
  constructor
  · rintro ⟨k, hlen, hfits, hbefore, hbal⟩
    have hkb : k * newest t.queue ≤ t.size := by
      have := hsplit k
      omega
    have hafter : ∀ j ≤ k, j * newest t.queue ≤ t.size ∧
        (after (newest t.queue) t.size j + addition) % 2 ^ 64 =
          t.size - j * newest t.queue + addition := fun j hj => after_add_mod hsum hkb hj
    have hk : Rounds max addition (newest t.queue) t.size t.queue.length k := by
      constructor
      · exact hlen
      · rw [(hafter k le_rfl).2]
        omega
      · intro j hj
        obtain ⟨hjb, heq⟩ := hafter j hj.le
        have := hbefore j hj
        rw [heq]
        omega
    refine ⟨(noWrap_iff hlt hb).mpr ⟨k, hk, hkb⟩, _, (evict_eq_ok hlt hb).mpr ⟨k, hk, rfl⟩, ?_⟩
    have := hsplit k
    simp only [after_eq_sub hlt hkb]
    omega
  · rintro ⟨hsafe, r, hr, hacc⟩
    obtain ⟨k, hk, hkb⟩ := (noWrap_iff hlt hb).mp hsafe
    have heq : evict max addition t.size t.queue =
        .ok (after (newest t.queue) t.size k, t.queue.drop k) :=
      (evict_eq_ok hlt hb).mpr ⟨k, hk, rfl⟩
    rw [hr] at heq
    cases heq
    have hafter : ∀ j ≤ k, j * newest t.queue ≤ t.size ∧
        (after (newest t.queue) t.size j + addition) % 2 ^ 64 =
          t.size - j * newest t.queue + addition := fun j hj => after_add_mod hsum hkb hj
    refine ⟨k, hk.le, ?_, ?_, ?_⟩
    · have := hk.stops
      rw [(hafter k le_rfl).2] at this
      omega
    · intro j hj
      obtain ⟨hjb, heq⟩ := hafter j hj.le
      have := hk.goesOn j hj
      rw [heq] at this
      omega
    · have := hsplit k
      simp only [after_eq_sub hlt hkb] at hacc
      omega

theorem apply_set_eq_ok {t u : DynamicTable} {key value : Bytes} (h : ¬ t.Refuses (key, value)) :
    t.apply (.set key value) = .ok u ↔
      ∃ r, evict t.max (charge (key, value)) t.size t.queue = .ok r ∧
        u = { t with
          size := (r.1 + charge (key, value)) % 2 ^ 64
          queue := r.2 ++ [(key, value)] } := by
  simp only [Refuses, not_or] at h
  have hset : t.set key value = (evict t.max (charge (key, value)) t.size t.queue >>= fun r =>
      .ok ({ t with
        size := (r.1 + charge (key, value)) % 2 ^ 64
        queue := r.2 ++ [(key, value)] }, true)) := by
    rw [set, if_neg h.1]
    exact if_neg h.2
  rw [apply, hset]
  cases evict t.max (charge (key, value)) t.size t.queue with
  | error x => simp
  | ok r => simp [eq_comm]

theorem apply_set_of_refuses {t : DynamicTable} {key value : Bytes}
    (h : t.Refuses (key, value)) : t.apply (.set key value) = .ok t := by
  have hset : t.set key value = .ok (t, false) := by
    rw [set]
    split_ifs with hover
    · rfl
    · exact if_pos (h.resolve_left hover)
  rw [apply, hset]
  rfl

theorem apply_resize_eq_ok {t u : DynamicTable} {max : UInt64} :
    t.apply (.resize max) = .ok u ↔
      ∃ r, evict max.toNat 0 t.size t.queue = .ok r ∧
        u = { max := max.toNat, size := r.1, queue := r.2 } := by
  rw [apply, resize]
  cases evict max.toNat 0 t.size t.queue with
  | error x => simp
  | ok r => simp [eq_comm]

theorem balanced_iff {t : DynamicTable} (ht : t.Accounted) (op : Op) :
    t.Balanced op ↔ t.Safe op ∧ ∃ u, t.apply op = .ok u ∧ u.Accounted := by
  have hsize := ht.size_eq
  have hle := ht.size_le
  have hmax := ht.max_lt
  cases op with
  | resize max =>
    have hmax' : max.toNat < 2 ^ 64 := max.toNat_lt
    rw [Balanced, Safe, balancedEviction_iff hsize (by omega)]
    refine and_congr_right fun hsafe => ?_
    simp only [apply_resize_eq_ok]
    constructor
    · rintro ⟨r, hr, hacc⟩
      have hbound := evict_le (by omega) hsafe hr
      exact ⟨_, ⟨r, hr, rfl⟩, hacc, hbound.2, hmax'⟩
    · rintro ⟨_, ⟨r, hr, rfl⟩, hacc, -, -⟩
      exact ⟨r, hr, hacc⟩
  | set key value =>
    by_cases href : t.Refuses (key, value)
    · have hsame := apply_set_of_refuses href
      exact ⟨fun _ => ⟨.inl href, t, hsame, ht⟩, fun _ => .inl href⟩
    have hcharge : charge (key, value) ≤ t.max := not_lt.mp fun h => href (.inr h)
    simp only [Balanced, Safe, href, false_or, apply_set_eq_ok href]
    by_cases hsum : t.size + charge (key, value) < 2 ^ 64
    · simp only [hsum, true_and]
      rw [balancedEviction_iff hsize hsum]
      refine and_congr_right fun hsafe => ?_
      constructor
      · rintro ⟨r, hr, hacc⟩
        have hbound := evict_le hsum hsafe hr
        refine ⟨_, ⟨r, hr, rfl⟩, ?_, ?_, hmax⟩
        · simp
          omega
        · simp
          omega
      · rintro ⟨_, ⟨r, hr, rfl⟩, hacc, -, -⟩
        have hbound := evict_le hsum hsafe hr
        refine ⟨r, hr, ?_⟩
        simp at hacc
        omega
    · -- the sum wraps around, so nothing is evicted and the counter falls
      simp only [hsum, false_and, false_iff, not_and, not_exists]
      rintro - u ⟨r, hr, rfl⟩ hacc
      have hsmall : ¬ t.max < (t.size + charge (key, value)) % 2 ^ 64 := by omega
      have hlt : t.size < 2 ^ 64 := by omega
      rw [(evict_eq_ok hlt (charge_getLast t.queue)).mpr
        ⟨0, (Rounds.none hlt hsmall).mpr rfl, rfl⟩] at hr
      cases hr
      have := hacc.size_eq
      simp [after_zero hlt] at this
      omega

theorem accounted_fresh (max : UInt64) : (fresh max).Accounted where
  size_eq := rfl
  size_le := Nat.zero_le _
  max_lt := max.toNat_lt

/-- The accounting of a history: after each of its calls the counter is the sum of the
charges and within the maximum, and no call wraps the counter around or reaches the
empty queue, if and only if all its evictions are balanced. -/
theorem accounting_iff_balanced (max : UInt64) (ops : List Op) :
    (∀ pre, pre <+: ops → ∃ t, RunWhere apply Safe (fresh max) pre t ∧ t.Accounted) ↔
      ∃ t, RunWhere apply Balanced (fresh max) ops t := by
  refine (RunWhere.exists_iff_forall_prefix (fun _ t => Accounted t) (accounted_fresh max) ?_).symm
  intro _ t op ht
  exact balanced_iff ht op

/-- An entry of 14 octets and one of 5: making room removes both, but subtracts 5
twice. -/
theorem accounting_fails :
    ¬ ∀ (max : UInt64) (ops : List Op), ∀ pre, pre <+: ops →
      ∃ t : DynamicTable, RunWhere apply Safe (fresh max) pre t ∧ t.Accounted := by
  intro h
  let ops : List Op := [.set (bytes "aaaaaaaaaa") [], .set (bytes "b") [], .resize 13]
  obtain ⟨t, hrun, ht⟩ := h 4096 ops ops List.prefix_rfl
  have hrun' : RunWhere apply Unrestricted (fresh 4096) ops { max := 13, size := 9, queue := [] } :=
    runChecked_sound (by decide +kernel)
  rw [hrun.unique hrun'] at ht
  exact absurd ht.size_eq (by decide)

end DynamicTable

namespace Rfc7541

def entrySize (e : Bytes × Bytes) : ℕ := e.1.length + e.2.length + 32

/-- The dynamic table, its entries from the oldest to the newest. -/
structure Table where
  max : ℕ
  entries : List (Bytes × Bytes) := []

def fresh (max : UInt64) : Table := { max := max.toNat }

/-- Sections 4.3 and 4.4: entries are evicted from the old end until the table, with
the new entry, is within the maximum. -/
def Table.apply (t : Table) : DynamicTable.Op → Table
  | .set key value =>
    if entrySize (key, value) ≤ t.max then { t with
      entries := evictTo entrySize (t.max - entrySize (key, value)) t.entries ++ [(key, value)] }
    else { t with entries := [] }
  | .resize max => { max := max.toNat, entries := evictTo entrySize max.toNat t.entries }

def run (max : UInt64) (ops : List DynamicTable.Op) : Table := ops.foldl Table.apply (fresh max)

def Table.get (t : Table) (i : ℕ) : Option (Bytes × Bytes) := t.entries.reverse[i]?

theorem run_concat (max : UInt64) (ops : List DynamicTable.Op) (op : DynamicTable.Op) :
    run max (ops ++ [op]) = (run max ops).apply op := by
  simp [run]

end Rfc7541

namespace DynamicTable

/-- The entries that both tables show behind the static ones are the same. -/
def Shows (t : DynamicTable) (r : Rfc7541.Table) : Prop := ∀ i, t.get (62 + i) = r.get i

/-- Both tables remove the same number `k` of entries: `k` charges of the newest entry
bring the counter with the addition down to `max`, and no fewer; removing the `k`
oldest entries brings the size of RFC 7541 down to `room`, and no fewer. -/
def SameEviction (t : DynamicTable) (max addition room : ℕ) : Prop :=
  ∃ k, Rounds max addition (newest t.queue) t.size t.queue.length k ∧
    Evicts Rfc7541.entrySize room t.queue k

/-- The condition on a call. An entry that RFC 7541 finds too large empties its table,
so it must be refused by a table that is empty already. -/
def Agrees (t : DynamicTable) : Op → Prop
  | .set key value =>
    if Rfc7541.entrySize (key, value) ≤ t.max then
      t.SameEviction t.max (charge (key, value)) (t.max - Rfc7541.entrySize (key, value))
    else t.Refuses (key, value) ∧ t.queue = []
  | .resize max => t.SameEviction max.toNat 0 max.toNat

theorem get_dynamic (t : DynamicTable) (i : ℕ) : t.get (62 + i) = t.queue.reverse[i]? := by
  have hlen : predefinedHeaders.length = 62 := rfl
  rw [get, if_neg (by omega), if_neg (by omega)]
  by_cases hi : i < t.queue.length
  · rw [if_pos (by omega), List.getElem?_reverse hi, hlen, Nat.add_sub_cancel_left]
  · rw [if_neg (by omega), List.getElem?_eq_none]
    simpa using hi

theorem shows_iff {t : DynamicTable} {r : Rfc7541.Table} : t.Shows r ↔ t.queue = r.entries := by
  constructor
  · intro h
    apply List.reverse_injective
    apply List.ext_getElem?
    intro i
    rw [← get_dynamic, h i, Rfc7541.Table.get]
  · intro h i
    rw [get_dynamic, h, Rfc7541.Table.get]

theorem after_lt (b size j : ℕ) : after b size j < 2 ^ 64 := by
  simp only [after]
  omega

theorem run_bounds {ok : DynamicTable → Op → Prop} {max : UInt64} {ops : List Op} {t : DynamicTable}
    (hrun : RunWhere apply ok (fresh max) ops t) :
    t.size < 2 ^ 64 ∧ t.max < 2 ^ 64 ∧ t.max = (Rfc7541.run max ops).max := by
  induction ops using List.reverseRecOn generalizing t with
  | nil =>
    cases hrun
    exact ⟨by simp [fresh], max.toNat_lt, rfl⟩
  | append_singleton ops op ih =>
    obtain ⟨s, hrun, -, hst⟩ := hrun.last
    obtain ⟨hsize, hmax, heq⟩ := ih hrun
    rw [Rfc7541.run_concat]
    cases op with
    | resize max =>
      obtain ⟨r, hr, rfl⟩ := apply_resize_eq_ok.mp hst
      obtain ⟨k, -, rfl⟩ := (evict_eq_ok hsize (charge_getLast s.queue)).mp hr
      exact ⟨after_lt _ _ _, max.toNat_lt, rfl⟩
    | set key value =>
      have hsame : ((Rfc7541.run max ops).apply (.set key value)).max = s.max := by
        rw [Rfc7541.Table.apply]
        split_ifs
        · exact heq.symm
        · exact heq.symm
      rw [hsame]
      by_cases href : s.Refuses (key, value)
      · rw [apply_set_of_refuses href] at hst
        cases hst
        exact ⟨hsize, hmax, rfl⟩
      · obtain ⟨r, hr, rfl⟩ := (apply_set_eq_ok href).mp hst
        exact ⟨Nat.mod_lt _ (by norm_num), hmax, rfl⟩

/-- Two evictions leave the same entries exactly when they remove the same number. -/
theorem sameEviction_iff {t : DynamicTable} {max addition room : ℕ} (hsize : t.size < 2 ^ 64) :
    t.SameEviction max addition room ↔
      ∃ r, evict max addition t.size t.queue = .ok r ∧
        r.2 = evictTo Rfc7541.entrySize room t.queue := by
  have hb := charge_getLast t.queue
  constructor
  · rintro ⟨k, hk, hev⟩
    exact ⟨_, (evict_eq_ok hsize hb).mpr ⟨k, hk, rfl⟩, (evictTo_eq_drop hev).symm⟩
  · rintro ⟨r, hr, hleft⟩
    obtain ⟨k, hk, rfl⟩ := (evict_eq_ok hsize hb).mp hr
    obtain ⟨k', hev⟩ := exists_evicts (w := Rfc7541.entrySize) room t.queue
    rw [evictTo_eq_drop hev] at hleft
    have hlen := congrArg List.length hleft
    simp only [List.length_drop] at hlen
    have hkk : k = k' := by
      have := hk.le
      have := hev.le
      omega
    exact ⟨k, hk, hkk ▸ hev⟩

/-- One call on two tables with the same entries and the same maximum. -/
theorem agrees_iff {t : DynamicTable} {r : Rfc7541.Table} (hsize : t.size < 2 ^ 64)
    (hmax : t.max < 2 ^ 64) (heq : t.max = r.max) (hshow : t.Shows r) (op : Op) :
    t.Agrees op ↔ ∃ u, t.apply op = .ok u ∧ u.Shows (r.apply op) := by
  rw [shows_iff] at hshow
  simp only [shows_iff]
  cases op with
  | resize max =>
    rw [Agrees, sameEviction_iff hsize]
    simp only [apply_resize_eq_ok, Rfc7541.Table.apply, ← hshow]
    constructor
    · rintro ⟨e, he, hleft⟩
      exact ⟨_, ⟨e, he, rfl⟩, hleft⟩
    · rintro ⟨_, ⟨e, he, rfl⟩, hleft⟩
      exact ⟨e, he, hleft⟩
  | set key value =>
    rw [Agrees, Rfc7541.Table.apply, ← heq, ← hshow]
    split_ifs with hfits
    · have hcharge : charge (key, value) ≤ entrySize (key, value) := Nat.mod_le _ _
      have href : ¬ t.Refuses (key, value) := by
        simp only [Refuses, not_or]
        simp only [entrySize] at hcharge
        simp only [Rfc7541.entrySize] at hfits
        omega
      rw [sameEviction_iff hsize]
      simp only [apply_set_eq_ok href]
      constructor
      · rintro ⟨e, he, hleft⟩
        exact ⟨_, ⟨e, he, rfl⟩, by rw [hleft]⟩
      · rintro ⟨_, ⟨e, he, rfl⟩, hleft⟩
        exact ⟨e, he, List.append_cancel_right hleft⟩
    · constructor
      · rintro ⟨href, hempty⟩
        exact ⟨t, apply_set_of_refuses href, hempty⟩
      · rintro ⟨u, hu, hempty⟩
        by_cases href : t.Refuses (key, value)
        · rw [apply_set_of_refuses href] at hu
          cases hu
          exact ⟨href, hempty⟩
        · obtain ⟨e, -, rfl⟩ := (apply_set_eq_ok href).mp hu
          simp at hempty

/-- A history shows the entries of RFC 7541 after each of its calls if and only if every
call meets the condition `Agrees`. -/
theorem contents_iff_agrees (max : UInt64) (ops : List Op) :
    (∀ pre, pre <+: ops →
      ∃ t, RunWhere apply Unrestricted (fresh max) pre t ∧ t.Shows (Rfc7541.run max pre)) ↔
      ∃ t, RunWhere apply Agrees (fresh max) ops t := by
  let I (pre : List Op) (t : DynamicTable) : Prop :=
    RunWhere apply Unrestricted (fresh max) pre t ∧ t.Shows (Rfc7541.run max pre)
  have h₀ : I [] (fresh max) := ⟨.nil _, shows_iff.mpr rfl⟩
  have hok : ∀ pre t op, I pre t →
      (Agrees t op ↔ Unrestricted t op ∧ ∃ u, apply t op = .ok u ∧ I (pre ++ [op]) u) := by
    rintro pre t op ⟨hrun, hshow⟩
    obtain ⟨hsize, hmax, heq⟩ := run_bounds hrun
    rw [agrees_iff hsize hmax heq hshow op, ← Rfc7541.run_concat]
    constructor
    · rintro ⟨u, hu, hshow'⟩
      exact ⟨trivial, u, hu, hrun.snoc trivial hu, hshow'⟩
    · rintro ⟨-, u, hu, -, hshow'⟩
      exact ⟨u, hu, hshow'⟩
  rw [RunWhere.exists_iff_forall_prefix I h₀ hok]
  constructor
  · intro h pre hpre
    obtain ⟨t, hrun, hshow⟩ := h pre hpre
    exact ⟨t, hrun, hrun, hshow⟩
  · intro h pre hpre
    obtain ⟨t, hrun, -, hshow⟩ := h pre hpre
    exact ⟨t, hrun, hshow⟩

/-- Two entries of 36 octets by RFC 7541 in a table of 40: both stay. -/
theorem contents_differ :
    ¬ ∀ (max : UInt64) (ops : List Op), ∀ pre, pre <+: ops →
      ∃ t, RunWhere apply Unrestricted (fresh max) pre t ∧ t.Shows (Rfc7541.run max pre) := by
  intro h
  let ops : List Op := [.resize 40, .set (bytes "k1") (bytes "v1"), .set (bytes "k2") (bytes "v2")]
  obtain ⟨t, hrun, hshow⟩ := h 4096 ops ops List.prefix_rfl
  have hrun' : RunWhere apply Unrestricted (fresh 4096) ops
      { max := 40, size := 16
        queue := [(bytes "k1", bytes "v1"), (bytes "k2", bytes "v2")] } :=
    runChecked_sound (by decide +kernel)
  rw [hrun.unique hrun', shows_iff] at hshow
  exact absurd hshow (by decide +kernel)

end DynamicTable
end Sese.Net.Http
