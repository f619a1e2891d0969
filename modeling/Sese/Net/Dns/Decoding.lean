import Mathlib.Logic.Relation
import Sese.Net.Dns.NameWalks

/-!
# Which datagrams are decoded to an end, and within their bounds

`Cursor` is where the decoder stands between two entries of a package, and `Advance` leads
over an entry that it accepts. The decoder comes to an end if no name that a cursor stands
at visits a place twice, and it stays within the datagram if all their places do.
-/
namespace Sese

open Foundation

namespace DnsPackage

variable {m : ℕ → UInt8} {length : ℕ}

/-- The decoder stands at `pos`, with so many entries left. The records of the last three
sections follow one another. -/
structure Cursor where
  questions : ℕ
  records : ℕ
  pos : ℕ

def Cursor.More (c : Cursor) : Prop := 0 < c.questions + c.records

section

variable (m : ℕ → UInt8) (length : ℕ)

def fieldAt (i : ℕ) : ℕ := (UInt16.ofNat (fromBigEndian [m i, m (i + 1)])).toNat

inductive Advance : Cursor → Cursor → Prop
  | question {q r pos e : ℕ} : Accepted m length pos e → Advance ⟨q + 1, r, pos⟩ ⟨q, r, e + 5⟩
  | record {r pos e : ℕ} : Accepted m length pos e → e + 10 ≤ length →
      e + 10 + fieldAt m (e + 8) ≤ length →
      Advance ⟨0, r + 1, pos⟩ ⟨0, r, e + 10 + fieldAt m (e + 8)⟩

def firstCursor : Cursor where
  questions := fieldAt m 4
  records := fieldAt m 6 + (fieldAt m 8 + fieldAt m 10)
  pos := 12

/-- The decoder comes to stand at `c`. -/
def ComesTo (c : Cursor) : Prop :=
  12 ≤ length ∧ c.More ∧ Relation.ReflTransGen (Advance m length) (firstCursor m) c

/-- From `c` on every entry has the property `P`. -/
def FromHere (P : Cursor → Prop) (c : Cursor) : Prop :=
  ∀ c', Relation.ReflTransGen (Advance m length) c c' → c'.More → P c'

end

theorem fromHere_iff {P : Cursor → Prop} {c : Cursor} :
    FromHere m length P c ↔
      (c.More → P c) ∧ ∀ c', Advance m length c c' → FromHere m length P c' := by
  constructor
  · intro h
    exact ⟨h c .refl, fun c' hstep c'' hrest => h c'' (hrest.head hstep)⟩
  · rintro ⟨hc, h⟩ c' hrest hmore
    rcases hrest.cases_head with rfl | ⟨d, hstep, hrest⟩
    · exact hc hmore
    · exact h d hstep c' hrest hmore

theorem fromHere_done {P : Cursor → Prop} {pos : ℕ} : FromHere m length P ⟨0, 0, pos⟩ := by
  rw [fromHere_iff]
  constructor
  · intro h
    exact absurd h (Nat.lt_irrefl 0)
  · intro c' h
    cases h

/-- What a fault `x` of the decoder comes from, for an access that either shows all of the
memory, so that only loops fail, or refuses what is not of the datagram. -/
structure Faulty (octet : Octets) (m : ℕ → UInt8) (length : ℕ) (x : Fault) : Prop where
  inside : ∀ i < length, octet i = .ok (m i)
  outside : ∀ i, octet i = .ok (m i) ∨ octet i = .error x
  name : ∀ pos, decodeWords octet length pos ≠ .error x → ∀ e,
    Accepted m length pos e ↔ ∃ text, text ≠ [] ∧ decodeWords octet length pos = .ok (text, e)

/-- An entry that does not bring the fault `x`: its name does not, and if it is a question,
the four octets of its fields do not. -/
def EntryAvoids (octet : Octets) (m : ℕ → UInt8) (length : ℕ) (x : Fault) (c : Cursor) : Prop :=
  decodeWords octet length c.pos ≠ .error x ∧
  (0 < c.questions → ∀ e, Accepted m length c.pos e → ∀ i < 4, octet (e + 1 + i) = .ok (m (e + 1 + i)))

theorem andThen_bind {α β γ : Type} (y : Except Fault γ) (f : γ → Except Fault (Option α))
    (K : α → Except Fault (Option β)) : andThen (y >>= f) K = y >>= fun c => andThen (f c) K := by
  cases y with
  | ok c => rfl
  | error e => rfl

theorem andThen_map {α β γ : Type} (y : Except Fault (Option α)) (f : α → γ)
    (K : γ → Except Fault (Option β)) :
    (y >>= fun r => andThen (.ok (r.map f)) K) = andThen y fun a => K (f a) := by
  cases y with
  | error e => rfl
  | ok r =>
    cases r with
    | none => rfl
    | some a => rfl

theorem read16_of_ok {octet : Octets} {i : ℕ} (h₀ : octet i = .ok (m i))
    (h₁ : octet (i + 1) = .ok (m (i + 1))) :
    read16 octet i = .ok (.ofNat (fromBigEndian [m i, m (i + 1)])) := by
  rw [read16, readBytes, h₀, ok_bind, readBytes, h₁]
  rfl

section

variable {octet : Octets} {x : Fault} (h : Faulty octet m length x)

include h

theorem Faulty.read16_eq (i : ℕ) :
    (octet i = .ok (m i) ∧ octet (i + 1) = .ok (m (i + 1)) ∧
      read16 octet i = .ok (.ofNat (fromBigEndian [m i, m (i + 1)]))) ∨
    (¬ (octet i = .ok (m i) ∧ octet (i + 1) = .ok (m (i + 1))) ∧ read16 octet i = .error x) := by
  rcases h.outside i with h₀ | h₀
  · rcases h.outside (i + 1) with h₁ | h₁
    · exact .inl ⟨h₀, h₁, read16_of_ok h₀ h₁⟩
    · refine .inr ⟨by simp [h₁], ?_⟩
      rw [read16, readBytes, h₀, ok_bind, readBytes, h₁]
      rfl
  · refine .inr ⟨by simp [h₀], ?_⟩
    rw [read16, readBytes, h₀]
    rfl

theorem Faulty.read16_inside {i : ℕ} (hi : i + 2 ≤ length) :
    read16 octet i = .ok (.ofNat (fromBigEndian [m i, m (i + 1)])) :=
  read16_of_ok (h.inside i (by omega)) (h.inside (i + 1) (by omega))

theorem Faulty.fields {α : Type} {e : ℕ} {f : UInt16 → UInt16 → Except Fault α} {P : Prop}
    (hf : ∀ t c, f t c ≠ .error x ↔ P) :
    (read16 octet (e + 1) >>= fun t => read16 octet (e + 3) >>= fun c => f t c) ≠ .error x ↔
      (∀ i < 4, octet (e + 1 + i) = .ok (m (e + 1 + i))) ∧ P := by
  have hall : (∀ i < 4, octet (e + 1 + i) = .ok (m (e + 1 + i))) ↔
      (octet (e + 1) = .ok (m (e + 1)) ∧ octet (e + 1 + 1) = .ok (m (e + 1 + 1))) ∧
      (octet (e + 3) = .ok (m (e + 3)) ∧ octet (e + 3 + 1) = .ok (m (e + 3 + 1))) := by
    constructor
    · intro hi
      exact ⟨⟨hi 0 (by omega), hi 1 (by omega)⟩, hi 2 (by omega), hi 3 (by omega)⟩
    · rintro ⟨⟨h₀, h₁⟩, h₂, h₃⟩ i hi
      interval_cases i
      · exact h₀
      · exact h₁
      · exact h₂
      · exact h₃
  rw [hall]
  rcases h.read16_eq (e + 1) with ⟨h₀, h₁, ht⟩ | ⟨hnot, ht⟩
  · rw [ht, ok_bind]
    rcases h.read16_eq (e + 3) with ⟨h₂, h₃, hc⟩ | ⟨hnot, hc⟩
    · rw [hc, ok_bind, hf]
      simp only [h₀, h₁, h₂, h₃, true_and]
    · rw [hc, error_bind]
      simp only [hnot, and_false, false_and, ne_eq, not_true_eq_false]
  · rw [ht, error_bind]
    simp only [hnot, false_and, ne_eq, not_true_eq_false]

theorem Faulty.entry {α : Type} {pos : ℕ} {g : Bytes → ℕ → Except Fault (Option α)}
    {P : ℕ → Prop} (hg : ∀ name e, g name e ≠ .error x ↔ P e) :
    (decodeWords octet length pos >>= fun w => if w.1 = [] then .ok none else g w.1 w.2) ≠
        .error x ↔
      decodeWords octet length pos ≠ .error x ∧ ∀ e, Accepted m length pos e → P e := by
  by_cases hne : decodeWords octet length pos = .error x
  · simp only [hne, error_bind, ne_eq, not_true_eq_false, false_and]
  simp only [hne, ne_eq, not_false_eq_true, true_and, h.name pos hne]
  cases hword : decodeWords octet length pos with
  | error y =>
    rw [hword] at hne
    simpa using hne
  | ok word =>
    obtain ⟨name, e⟩ := word
    rw [ok_bind]
    dsimp only
    by_cases hname : name = []
    · rw [if_pos hname]
      simp only [reduceCtorEq, not_false_eq_true, true_iff, Except.ok.injEq, Prod.mk.injEq]
      rintro e' ⟨text, htext, rfl, -⟩
      exact absurd hname htext
    · rw [if_neg hname]
      refine (hg name e).trans ?_
      simp only [Except.ok.injEq, Prod.mk.injEq]
      constructor
      · rintro hP e' ⟨text, -, -, rfl⟩
        exact hP
      · intro hP
        exact hP e ⟨name, hname, rfl, rfl⟩

theorem Faulty.questions {α : Type} {r n pos : ℕ}
    {K : List Question × ℕ → Except Fault (Option α)}
    (hK : ∀ qs p, K (qs, p) ≠ .error x ↔ FromHere m length (EntryAvoids octet m length x) ⟨0, r, p⟩) :
    andThen (decodeQuestions octet length n pos) K ≠ .error x ↔
      FromHere m length (EntryAvoids octet m length x) ⟨n, r, pos⟩ := by
  induction n generalizing pos K with
  | zero => exact hK [] pos
  | succ n ih =>
    have hstep : andThen (decodeQuestions octet length (n + 1) pos) K =
        decodeWords octet length pos >>= fun w => if w.1 = [] then .ok none else
          read16 octet (w.2 + 1) >>= fun t => read16 octet (w.2 + 3) >>= fun c =>
            andThen (decodeQuestions octet length n (w.2 + 5)) fun a =>
              K ({ name := w.1, type := t, class_ := c } :: a.1, a.2) := by
      rw [decodeQuestions, andThen_bind]
      congr 1
      funext w
      dsimp only
      split_ifs with hname
      · rfl
      · simp only [andThen_bind, andThen_map]
    have hbody : ∀ (name : Bytes) (e : ℕ),
        (read16 octet (e + 1) >>= fun t => read16 octet (e + 3) >>= fun c =>
          andThen (decodeQuestions octet length n (e + 5)) fun a =>
            K ({ name := name, type := t, class_ := c } :: a.1, a.2)) ≠ .error x ↔
        (∀ i < 4, octet (e + 1 + i) = .ok (m (e + 1 + i))) ∧
          FromHere m length (EntryAvoids octet m length x) ⟨n, r, e + 5⟩ := by
      intro name e
      exact h.fields fun t c => ih fun qs p => hK _ p
    rw [hstep, h.entry hbody, fromHere_iff]
    have hmore : Cursor.More ⟨n + 1, r, pos⟩ := Nat.lt_add_right r (Nat.succ_pos n)
    simp only [hmore, true_imp_iff, EntryAvoids, Nat.succ_pos]
    constructor
    · rintro ⟨hname, hall⟩
      refine ⟨⟨hname, fun e he => (hall e he).1⟩, ?_⟩
      intro c' hc'
      cases hc' with
      | question he => exact (hall _ he).2
    · rintro ⟨⟨hname, hfields⟩, hall⟩
      exact ⟨hname, fun e he => ⟨hfields e he, hall _ (.question he)⟩⟩

theorem Faulty.readBytes {pos n : ℕ} (hn : pos + n ≤ length) :
    readBytes octet pos n = .ok ((List.range n).map fun i => m (pos + i)) :=
  readBytes_of_ok fun i _ hi => h.inside i (by omega)

theorem Faulty.answers {α : Type} {r n pos : ℕ}
    {K : List Answer × ℕ → Except Fault (Option α)}
    (hK : ∀ as p, K (as, p) ≠ .error x ↔ FromHere m length (EntryAvoids octet m length x) ⟨0, r, p⟩) :
    andThen (decodeAnswers octet length n pos) K ≠ .error x ↔
      FromHere m length (EntryAvoids octet m length x) ⟨0, n + r, pos⟩ := by
  induction n generalizing pos K with
  | zero =>
    rw [Nat.zero_add]
    exact hK [] pos
  | succ n ih =>
    have hstep : andThen (decodeAnswers octet length (n + 1) pos) K =
        decodeWords octet length pos >>= fun w => if w.1 = [] then .ok none else
          if length < w.2 + 10 then .ok none else
            read16 octet w.2 >>= fun t => read16 octet (w.2 + 2) >>= fun c =>
              read32 octet (w.2 + 4) >>= fun l => read16 octet (w.2 + 8) >>= fun d =>
                if length < w.2 + 10 + d.toNat then .ok none else
                  Sese.readBytes octet (w.2 + 10) d.toNat >>= fun data =>
                    andThen (decodeAnswers octet length n (w.2 + 10 + d.toNat)) fun a =>
                      K ({ name := w.1, type := t, class_ := c, ttl := l, data_length := d,
                           data := data } :: a.1, a.2) := by
      rw [decodeAnswers, andThen_bind]
      congr 1
      funext w
      dsimp only
      split_ifs with hname hlen
      · rfl
      · rfl
      · simp only [andThen_bind]
        congr! 8
        split_ifs with hdata
        · rfl
        · simp only [andThen_bind, andThen_map]
    have hbody : ∀ (name : Bytes) (e : ℕ),
        (if length < e + 10 then .ok none else
          read16 octet e >>= fun t => read16 octet (e + 2) >>= fun c =>
            read32 octet (e + 4) >>= fun l => read16 octet (e + 8) >>= fun d =>
              if length < e + 10 + d.toNat then .ok none else
                Sese.readBytes octet (e + 10) d.toNat >>= fun data =>
                  andThen (decodeAnswers octet length n (e + 10 + d.toNat)) fun a =>
                    K ({ name := name, type := t, class_ := c, ttl := l, data_length := d,
                         data := data } :: a.1, a.2)) ≠ .error x ↔
        (e + 10 ≤ length → e + 10 + fieldAt m (e + 8) ≤ length →
          FromHere m length (EntryAvoids octet m length x)
            ⟨0, n + r, e + 10 + fieldAt m (e + 8)⟩) := by
      intro name e
      by_cases h₁ : length < e + 10
      · simp [h₁, not_le.mpr h₁]
      · rw [if_neg h₁, h.read16_inside (by omega), ok_bind, h.read16_inside (by omega), ok_bind,
          read32, h.readBytes (by omega), h.read16_inside (by omega)]
        have hd : (UInt16.ofNat (fromBigEndian [m (e + 8), m (e + 8 + 1)])).toNat =
            fieldAt m (e + 8) := rfl
        simp only [ok_bind, hd]
        by_cases h₂ : length < e + 10 + fieldAt m (e + 8)
        · simp [h₂, not_le.mpr h₂]
        · rw [if_neg h₂, h.readBytes (not_lt.mp h₂), ok_bind]
          refine Iff.trans (ih ?_) ?_
          · intro as p
            exact hK _ p
          exact ⟨fun hfrom _ _ => hfrom, fun hfrom => hfrom (not_lt.mp h₁) (not_lt.mp h₂)⟩
    rw [hstep, h.entry hbody, fromHere_iff]
    have hmore : Cursor.More ⟨0, n + 1 + r, pos⟩ := by
      change 0 < 0 + (n + 1 + r)
      omega
    simp only [hmore, true_imp_iff, EntryAvoids, Nat.lt_irrefl, false_imp_iff, and_true]
    apply and_congr_right
    intro _
    rw [Nat.succ_add]
    constructor
    · intro hall c' hc'
      cases hc' with
      | record he h₁ h₂ => exact hall _ he h₁ h₂
    · intro hall e he h₁ h₂
      exact hall _ (.record he h₁ h₂)

theorem Faulty.decode :
    DnsPackage.decode octet length ≠ .error x ↔
      ∀ c, ComesTo m length c → EntryAvoids octet m length x c := by
  by_cases hlen : length < 12
  · rw [DnsPackage.decode, if_pos hlen]
    constructor
    · intro _ c hc
      exact absurd hc.1 (not_le.mpr hlen)
    · intro _ heq
      cases heq
  have hfrom : (∀ c, ComesTo m length c → EntryAvoids octet m length x c) ↔
      FromHere m length (EntryAvoids octet m length x) (firstCursor m) := by
    constructor
    · intro hall c hrest hmore
      exact hall c ⟨not_lt.mp hlen, hmore, hrest⟩
    · intro hall c hc
      exact hall c hc.2.2 hc.2.1
  rw [hfrom, DnsPackage.decode, if_neg hlen]
  simp only [h.read16_inside (show 0 + 2 ≤ length by omega),
    h.read16_inside (show 2 + 2 ≤ length by omega), h.read16_inside (show 4 + 2 ≤ length by omega),
    h.read16_inside (show 6 + 2 ≤ length by omega), h.read16_inside (show 8 + 2 ≤ length by omega),
    h.read16_inside (show 10 + 2 ≤ length by omega), ok_bind]
  refine h.questions fun qs p => ?_
  refine h.answers fun as p => ?_
  refine h.answers fun ns p => ?_
  refine (h.answers (r := 0) fun ar p => ?_).trans (by rw [Nat.add_zero]; rfl)
  simp [fromHere_done]

end

theorem faulty_memory (x : Fault) : Faulty (memory m) m length x where
  inside _ _ := rfl
  outside _ := .inl rfl
  name pos _ e := by
    apply (shows_memory .overread).accepted_iff
    apply (shows_memory .overread).returns (by decide)
    intro hr
    cases decodeWords_memory_error hr

theorem faulty_within : Faulty (within m length) m length .overread where
  inside _ hi := within_of_lt hi
  outside i := by
    by_cases hi : i < length
    · exact .inl (within_of_lt hi)
    · exact .inr (within_of_le (not_lt.mp hi))
  name pos hne e := shows_within.accepted_iff (shows_within.returns (by decide) hne)

theorem decode_memory_ne_endless :
    decode (memory m) length ≠ .error .endlessLoop ↔
      ∀ c, ComesTo m length c → NeverReturns (Place.next m length) ⟨c.pos, 0⟩ := by
  rw [(faulty_memory _).decode]
  apply forall₂_congr
  intro c _
  rw [EntryAvoids, decodeWords_memory_ne_endless]
  exact and_iff_left fun _ e _ i _ => rfl

theorem decode_memory_error {x : Fault} (hr : decode (memory m) length = .error x) :
    x = .endlessLoop := by
  by_contra hx
  have havoids : ∀ c, ComesTo m length c → EntryAvoids (memory m) m length x c := by
    intro c _
    constructor
    · intro hword
      exact hx (decodeWords_memory_error hword)
    · intro _ e _ i _
      rfl
  exact (faulty_memory x).decode.mpr havoids hr

/-- Decoding returns exactly if no name that it comes to visits a place twice. -/
theorem decode_returns_iff (m : ℕ → UInt8) (length : ℕ) :
    (∃ result, decode (memory m) length = .ok result) ↔
      ∀ c, ComesTo m length c → NeverReturns (Place.next m length) ⟨c.pos, 0⟩ := by
  rw [← decode_memory_ne_endless]
  constructor
  · rintro ⟨result, hr⟩ hends
    cases hr.symm.trans hends
  · intro hne
    cases hr : decode (memory m) length with
    | ok result => exact ⟨result, rfl⟩
    | error x =>
      obtain rfl := decode_memory_error hr
      exact absurd hr hne

def selfPointer : Bytes := [0, 1, 0, 0, 0, 1, 0, 0, 0, 0, 0, 0, 0xC0, 12]

theorem decode_selfPointer_endless :
    ¬ ∃ result, decode (memory fun i => selfPointer.getD i 0) selfPointer.length = .ok result := by
  rintro ⟨result, hr⟩
  have hne := decode_memory_ne_endless.mp (by rw [hr]; simp)
  have hfirst : ComesTo (fun i => selfPointer.getD i 0) selfPointer.length ⟨1, 0, 12⟩ :=
    ⟨by decide, Nat.one_pos, .refl⟩
  exact hne _ hfirst _ (.refl _ _) 1 Nat.one_pos (by decide)

/-- Decoding stays within the datagram exactly if every name that it comes to does at all its
places, and every question has four octets behind the end of its name. -/
theorem decode_within_iff (m : ℕ → UInt8) (length : ℕ) :
    decode (within m length) length ≠ .error .overread ↔
      ∀ c, ComesTo m length c →
        (∀ q, Leads (Place.next m length) ⟨c.pos, 0⟩ q → Contained m length q) ∧
        (0 < c.questions → ∀ e, Accepted m length c.pos e → e + 4 < length) := by
  rw [faulty_within.decode]
  apply forall₂_congr
  intro c _
  rw [EntryAvoids, decodeWords_within_ne_overread]
  apply and_congr_right
  intro _
  apply imp_congr_right
  intro _
  apply forall₂_congr
  intro e _
  constructor
  · intro h
    by_contra hlt
    have := h 3 (by omega)
    rw [within_of_le (by omega)] at this
    cases this
  · intro h i hi
    exact within_of_lt (by omega)

/-- A header that announces a question, and nothing behind it. -/
theorem decode_header_overread :
    ¬ ∀ (m : ℕ → UInt8) (length : ℕ), decode (within m length) length ≠ .error .overread := by
  intro h
  exact h (fun i => ([0, 1, 0, 0, 0, 1, 0, 0, 0, 0, 0, 0] : Bytes).getD i 0) 12 (by decide +kernel)

end DnsPackage

end Sese
