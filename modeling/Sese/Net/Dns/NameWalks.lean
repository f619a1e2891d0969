import Mathlib.Data.Finset.Prod
import Sese.Net.Dns.NamePlaces

/-!
# The loop of a name as a walk over its places

Whether the loop returns, which names it accepts and whether the access is refused to it
is read off the walk: it returns if no place is visited twice, and stays within the
datagram if every place does.
-/
namespace Sese

open Foundation

namespace DnsPackage

variable {m : ℕ → UInt8} {length : ℕ}

/-- An access that shows `m` or is refused with the fault `x`. -/
def Shows (octet : Octets) (m : ℕ → UInt8) (length : ℕ) (x : Fault) : Prop :=
  ∀ p : Place, Readable octet m length p ∨
    ∀ n first text, wordsLoop octet length (n + 1) p.offset p.pos first text = .error x

theorem shows_memory (x : Fault) : Shows (memory m) m length x := fun p => .inl (readable_memory p)

theorem shows_within : Shows (within m length) m length .overread := by
  intro p
  by_cases hp : Contained m length p
  · exact .inl hp.readable
  · exact .inr (wordsLoop_of_not_contained hp)

section

variable {octet : Octets} {x : Fault} (h : Shows octet m length x) {n offset pos : ℕ}
  {first : Bool} {text : Bytes} {r : Bytes × ℕ}

include h

theorem Shows.nameEnds_of_ok
    (hr : wordsLoop octet length n offset pos first text = .ok r) (hne : r.1 ≠ []) :
    (text ≠ [] ∨ m (offset + pos) ≠ 0) ∧ NameEnds m length offset pos r.2 := by
  induction n generalizing offset pos first text r with
  | zero => cases hr
  | succ n ih =>
    rcases h ⟨offset, pos⟩ with hread | hover
    · cases hread.round n first text with
      | terminator hz _ hloop =>
        cases hloop.symm.trans hr
        exact ⟨.inl hne, .terminator hz⟩
      | refused _ _ hloop =>
        cases hloop.symm.trans hr
        exact absurd rfl hne
      | pointer hb ht _ hloop =>
        rw [hloop] at hr
        obtain ⟨sub, hsub, hfollowed⟩ := bind_eq_ok.mp hr
        cases hfollowed
        by_cases hempty : sub.1 = []
        · rw [followed, if_pos hempty] at hne
          exact absurd rfl hne
        · obtain ⟨htarget, hends⟩ := ih hsub hempty
          have hz := isPointer_ne_zero hb
          rw [followed, if_neg hempty]
          exact ⟨.inr hz, .pointer hz hb ht (htarget.resolve_left (not_not.mpr rfl)) hends⟩
      | label hz hb hl _ text' _ hloop =>
        rw [hloop] at hr
        exact ⟨.inr hz, .label hz hb hl (ih hr hne).2⟩
    · rw [hover] at hr
      cases hr

theorem Shows.ok_of_nameEnds {e : ℕ} (he : NameEnds m length offset pos e)
    (hr : wordsLoop octet length n offset pos first text = .ok r)
    (hne : text ≠ [] ∨ m (offset + pos) ≠ 0) : r.1 ≠ [] ∧ r.2 = e := by
  induction he generalizing n first text r with
  | @terminator offset pos hz =>
    cases n with
    | zero => cases hr
    | succ n =>
      rcases h ⟨offset, pos⟩ with hread | hover
      · cases hread.round n first text with
        | terminator _ _ hloop =>
          cases hloop.symm.trans hr
          exact ⟨hne.resolve_right (not_not.mpr hz), rfl⟩
        | refused hnot => exact absurd (.terminator hz) (hnot _)
        | pointer hb => exact absurd hz (isPointer_ne_zero hb)
        | label hz' => exact absurd hz hz'
      · rw [hover] at hr
        cases hr
  | @pointer offset pos e hz hb ht htz hends ih =>
    cases n with
    | zero => cases hr
    | succ n =>
      rcases h ⟨offset, pos⟩ with hread | hover
      · cases hread.round n first text with
        | terminator hz' => exact absurd hz' hz
        | refused hnot => exact absurd (.pointer hz hb ht htz hends) (hnot _)
        | pointer _ _ _ hloop =>
          rw [hloop] at hr
          obtain ⟨sub, hsub, hfollowed⟩ := bind_eq_ok.mp hr
          cases hfollowed
          obtain ⟨hempty, -⟩ := ih hsub (.inr htz)
          rw [followed, if_neg hempty]
          exact ⟨by simp [hempty], rfl⟩
        | label _ hb' => exact absurd hb hb'
      · rw [hover] at hr
        cases hr
  | @label offset pos e hz hb hl hends ih =>
    cases n with
    | zero => cases hr
    | succ n =>
      rcases h ⟨offset, pos⟩ with hread | hover
      · cases hread.round n first text with
        | terminator hz' => exact absurd hz' hz
        | refused hnot => exact absurd (.label hz hb hl hends) (hnot _)
        | pointer hb' => exact absurd hb' hb
        | label _ _ _ _ text' htext hloop =>
          rw [hloop] at hr
          exact ih hr (.inl htext)
      · rw [hover] at hr
        cases hr

/-- A loop that is cut off has not come to the end of its places. -/
theorem Shows.orbit_of_endless (hx : x ≠ .endlessLoop)
    (hr : wordsLoop octet length n offset pos first text = .error .endlessLoop) :
    orbit (Place.next m length) n ⟨offset, pos⟩ ≠ none := by
  induction n generalizing offset pos first text with
  | zero => simp
  | succ n ih =>
    rcases h ⟨offset, pos⟩ with hread | hover
    · rw [orbit_succ]
      cases hread.round n first text with
      | terminator _ _ hloop => cases hloop.symm.trans hr
      | refused _ _ hloop => cases hloop.symm.trans hr
      | pointer _ _ hnext hloop =>
        rw [hnext, Option.bind_some]
        rw [hloop] at hr
        cases hsub : wordsLoop octet length n (targetAt m (offset + pos)) 0 true [] with
        | ok sub =>
          rw [hsub] at hr
          cases hr
        | error y =>
          rw [hsub] at hr
          cases hr
          exact ih hsub
      | label _ _ _ hnext text' _ hloop =>
        rw [hnext, Option.bind_some]
        rw [hloop] at hr
        exact ih hr
    · rw [hover] at hr
      exact absurd (Except.error.inj hr) hx

theorem Shows.orbit_of_ok (hr : wordsLoop octet length n offset pos first text = .ok r) :
    orbit (Place.next m length) n ⟨offset, pos⟩ = none := by
  induction n generalizing offset pos first text r with
  | zero => cases hr
  | succ n ih =>
    rcases h ⟨offset, pos⟩ with hread | hover
    · rw [orbit_succ]
      cases hread.round n first text with
      | terminator _ hnext => rw [hnext, Option.bind_none]
      | refused _ hnext => rw [hnext, Option.bind_none]
      | pointer _ _ hnext hloop =>
        rw [hloop] at hr
        obtain ⟨sub, hsub, -⟩ := bind_eq_ok.mp hr
        rw [hnext, Option.bind_some]
        exact ih hsub
      | label _ _ _ hnext text' _ hloop =>
        rw [hloop] at hr
        rw [hnext, Option.bind_some]
        exact ih hr
    · rw [hover] at hr
      cases hr

theorem Shows.error {y : Fault}
    (hr : wordsLoop octet length n offset pos first text = .error y) : y = .endlessLoop ∨ y = x := by
  induction n generalizing offset pos first text y with
  | zero =>
    cases hr
    exact .inl rfl
  | succ n ih =>
    rcases h ⟨offset, pos⟩ with hread | hover
    · cases hread.round n first text with
      | terminator _ _ hloop => cases hloop.symm.trans hr
      | refused _ _ hloop => cases hloop.symm.trans hr
      | pointer _ _ _ hloop =>
        rw [hloop] at hr
        cases hsub : wordsLoop octet length n (targetAt m (offset + pos)) 0 true [] with
        | ok sub =>
          rw [hsub] at hr
          cases hr
        | error z =>
          rw [hsub] at hr
          cases hr
          exact ih hsub
      | label _ _ _ _ text' _ hloop =>
        rw [hloop] at hr
        exact ih hr
    · rw [hover] at hr
      exact .inr (Except.error.inj hr).symm

end

/-- Within the datagram the access is refused if a place that the loop comes to is not
contained. -/
theorem wordsLoop_within_ne_overread {n offset pos : ℕ} {first : Bool} {text : Bytes} :
    wordsLoop (within m length) length n offset pos first text ≠ .error .overread ↔
      ∀ k < n, ∀ q, orbit (Place.next m length) k ⟨offset, pos⟩ = some q →
        Contained m length q := by
  induction n generalizing offset pos first text with
  | zero => simp [wordsLoop]
  | succ n ih =>
    rw [forall_orbit_lt_succ]
    by_cases hp : Contained m length ⟨offset, pos⟩
    · simp only [hp, true_and]
      cases hp.readable.round n first text with
      | terminator _ hnext hloop => simp [hnext, hloop]
      | refused _ hnext hloop => simp [hnext, hloop]
      | pointer _ _ hnext hloop =>
        rw [hnext, hloop]
        simp only [Option.some.injEq, forall_eq']
        rw [← @ih (targetAt m (offset + pos)) 0 true []]
        cases wordsLoop (within m length) length n (targetAt m (offset + pos)) 0 true [] with
        | ok sub => simp
        | error x => simp
      | label _ _ _ hnext text' _ hloop =>
        rw [hnext, hloop]
        simp only [Option.some.injEq, forall_eq']
        exact ih
    · simp [hp, wordsLoop_of_not_contained hp]

theorem NameEnds.orbit_eq_none {offset pos e : ℕ} (h : NameEnds m length offset pos e) :
    ∃ n, orbit (Place.next m length) n ⟨offset, pos⟩ = none := by
  induction h with
  | terminator hz => exact ⟨1, by simp [orbit_succ, Place.next, Place.index, hz]⟩
  | pointer hz hb ht _ _ ih =>
    obtain ⟨n, hn⟩ := ih
    refine ⟨n + 1, ?_⟩
    rw [orbit_succ, Place.next, Place.index, if_neg hz, if_pos hb, if_neg (not_lt.mpr ht)]
    exact hn
  | label hz hb hl _ ih =>
    obtain ⟨n, hn⟩ := ih
    refine ⟨n + 1, ?_⟩
    rw [orbit_succ, Place.next, Place.index, if_neg hz, if_neg hb, if_neg (not_lt.mpr hl)]
    exact hn

/-- The places with the offset `offset` or one below `targets`, and an index below `indexes`. -/
def grid (offset targets indexes : ℕ) : Finset Place :=
  (insert offset (Finset.range targets) ×ˢ Finset.range indexes).image fun x => ⟨x.1, x.2⟩

theorem mem_grid {offset targets indexes : ℕ} {p : Place} :
    p ∈ grid offset targets indexes ↔
      (p.offset = offset ∨ p.offset < targets) ∧ p.pos < indexes := by
  simp only [grid, Finset.mem_image, Finset.mem_product, Finset.mem_insert, Finset.mem_range]
  constructor
  · rintro ⟨x, hx, rfl⟩
    exact hx
  · intro h
    exact ⟨(p.offset, p.pos), h, rfl⟩

theorem card_grid_le (offset targets indexes : ℕ) :
    (grid offset targets indexes).card ≤ (targets + 1) * indexes := by
  calc
    (grid offset targets indexes).card ≤
        (insert offset (Finset.range targets) ×ˢ Finset.range indexes).card :=
      Finset.card_image_le
    _ = (insert offset (Finset.range targets)).card * indexes := by
      rw [Finset.card_product, Finset.card_range]
    _ ≤ (targets + 1) * indexes := by
      apply Nat.mul_le_mul_right
      exact (Finset.card_insert_le _ _).trans_eq (by rw [Finset.card_range])

/-- The places that a name at `offset` may visit. -/
@[irreducible] def places (offset : ℕ) : Finset Place := grid offset 16384 65536

theorem mem_places {start : ℕ} {p : Place} :
    p ∈ places start ↔ (p.offset = start ∨ p.offset < 16384) ∧ p.pos < 65536 := by
  unfold places
  exact mem_grid

theorem card_places_le (offset : ℕ) : (places offset).card ≤ nameFuel := by
  unfold places nameFuel
  exact card_grid_le offset 16384 65536

theorem next_mem_places {start : ℕ} {p q : Place} (hp : p ∈ places start)
    (h : Place.next m length p = some q) : q ∈ places start := by
  rw [mem_places] at hp ⊢
  rw [Place.next] at h
  split_ifs at h with hz hb ht hl
  · rw [← Option.some.inj h]
    exact ⟨.inr (pointerTarget_lt _ _), Nat.succ_pos _⟩
  · rw [← Option.some.inj h]
    exact ⟨hp.1, Nat.mod_lt _ (Nat.succ_pos _)⟩

theorem leads_mem_places {offset : ℕ} (q : Place)
    (h : Leads (Place.next m length) ⟨offset, 0⟩ q) : q ∈ places offset := by
  obtain ⟨n, hn⟩ := h
  have hstart : (⟨offset, 0⟩ : Place) ∈ places offset :=
    mem_places.mpr ⟨.inl rfl, Nat.succ_pos _⟩
  generalize (⟨offset, 0⟩ : Place) = p at hn hstart
  induction n generalizing p with
  | zero =>
    rw [← Option.some.inj hn]
    exact hstart
  | succ n ih =>
    obtain ⟨p', hp', hpq⟩ := Option.bind_eq_some_iff.mp hn
    exact ih p' hpq (next_mem_places hstart hp')

/-- Decoding a name comes to an end if no place is visited twice. -/
theorem decodeWords_memory_ne_endless {offset : ℕ} :
    decodeWords (memory m) length offset ≠ .error .endlessLoop ↔
      NeverReturns (Place.next m length) ⟨offset, 0⟩ := by
  rw [← orbit_eq_none_iff (places offset) leads_mem_places (card_places_le offset)]
  constructor
  · intro h
    cases hr : decodeWords (memory m) length offset with
    | ok r => exact (shows_memory .overread).orbit_of_ok hr
    | error x =>
      obtain rfl : x = .endlessLoop := by
        rcases (shows_memory .endlessLoop).error hr with hx | hx
        · exact hx
        · exact hx
      exact absurd hr h
  · intro h hr
    exact (shows_memory .overread).orbit_of_endless (by decide) hr h

/-- Decoding a name stays within the datagram if all its places are contained. -/
theorem decodeWords_within_ne_overread {offset : ℕ} :
    decodeWords (within m length) length offset ≠ .error .overread ↔
      ∀ q, Leads (Place.next m length) ⟨offset, 0⟩ q → Contained m length q := by
  rw [decodeWords, wordsLoop_within_ne_overread]
  constructor
  · intro h q hq
    obtain ⟨k, hk, hkq⟩ := exists_orbit_lt_card (places offset) leads_mem_places hq
    exact h k (Nat.lt_of_lt_of_le hk (card_places_le offset)) q hkq
  · intro h k _ q hq
    exact h q ⟨k, hq⟩

/-- A name is accepted and ends at `e`. -/
def Accepted (m : ℕ → UInt8) (length pos e : ℕ) : Prop :=
  m pos ≠ 0 ∧ NameEnds m length pos 0 e

theorem Shows.accepted_iff {octet : Octets} {x : Fault} (h : Shows octet m length x)
    {pos e : ℕ}
    (hret : NameEnds m length pos 0 e → ∃ r, decodeWords octet length pos = .ok r) :
    Accepted m length pos e ↔ ∃ text, text ≠ [] ∧ decodeWords octet length pos = .ok (text, e) := by
  constructor
  · rintro ⟨hz, he⟩
    obtain ⟨⟨text, e'⟩, hr⟩ := hret he
    obtain ⟨htext, rfl⟩ := h.ok_of_nameEnds he hr (.inr hz)
    exact ⟨text, htext, hr⟩
  · rintro ⟨text, htext, hr⟩
    obtain ⟨hz, he⟩ := h.nameEnds_of_ok hr htext
    exact ⟨hz.resolve_left (not_not.mpr rfl), he⟩

theorem Shows.returns {octet : Octets} {x : Fault} (h : Shows octet m length x)
    (hx : x ≠ .endlessLoop) {pos e : ℕ} (hne : decodeWords octet length pos ≠ .error x)
    (he : NameEnds m length pos 0 e) : ∃ r, decodeWords octet length pos = .ok r := by
  cases hr : decodeWords octet length pos with
  | ok r => exact ⟨r, rfl⟩
  | error y =>
    obtain rfl | rfl := h.error hr
    · obtain ⟨n, hn⟩ := he.orbit_eq_none
      have hnone := (orbit_eq_none_iff (places pos) leads_mem_places (card_places_le pos)).mpr
        (neverReturns_of_orbit_eq_none hn)
      exact absurd hnone (h.orbit_of_endless hx hr)
    · exact absurd hr hne

theorem decodeWords_memory_error {pos : ℕ} {y : Fault}
    (hr : decodeWords (memory m) length pos = .error y) : y = .endlessLoop := by
  rcases (shows_memory .endlessLoop).error hr with h | h
  · exact h
  · exact h

end DnsPackage

end Sese
