import Sese.Net.Http.HPackIntegers

/-!
# What a header block is made of

A header block is a sequence of representations, and every representation says itself where it ends.
`HPackUtil::decode` goes by its own count of octets. It agrees with the representations as long as no
string lacks its length octet, which `decodeString` does not notice, no representation reaches past
`content_length`, which is compared between the rounds only, and no integer that decides how far a
literal goes is cut down to 32 bits.
-/
namespace Sese.Net.Http
namespace HPackUtil

open Foundation

def IsString (octets : Bytes) : Prop :=
  ∃ first cont body, octets = first :: (cont ++ body) ∧
    PrefixInteger.Spells 7 first cont body.length

inductive Strings : ℕ → Bytes → Prop
  | none : Strings 0 []
  | more {k : ℕ} {string strings : Bytes} (first : IsString string) (others : Strings k strings) :
      Strings (k + 1) (string ++ strings)

/-- The first octets `01xxxxxx`, `0001xxxx` and `0000xxxx`. -/
def IsLiteral (first : UInt8) : Prop := first.toNat < 32 ∨ 64 ≤ first.toNat ∧ first.toNat < 128

instance (first : UInt8) : Decidable (IsLiteral first) := inferInstanceAs (Decidable (_ ∨ _))

/-- The bits of the first octet that belong to its integer. -/
def prefixWidth (first : UInt8) : ℕ :=
  if 128 ≤ first.toNat then 7 else if 64 ≤ first.toNat then 6 else if 32 ≤ first.toNat then 5 else 4

/-- A literal has a value, and a name unless the index stands for one. -/
def stringsBehind (first : UInt8) (index : ℕ) : ℕ :=
  if IsLiteral first then (if index = 0 then 2 else 1) else 0

/-- A field with everything that belongs to it, or a change of the table size. -/
def IsRepresentation (octets : Bytes) : Prop :=
  ∃ first cont v strings, octets = first :: (cont ++ strings) ∧
    PrefixInteger.Spells (prefixWidth first) first cont v ∧ Strings (stringsBehind first v) strings

def IsBlock (octets : Bytes) : Prop :=
  ∃ reps : List Bytes, (∀ rep ∈ reps, IsRepresentation rep) ∧ octets = reps.flatten

theorem isBlock_nil : IsBlock [] := ⟨[], by simp, rfl⟩

theorem IsBlock.concat {block rep : Bytes} (hblock : IsBlock block) (hrep : IsRepresentation rep) :
    IsBlock (block ++ rep) := by
  obtain ⟨reps, hreps, rfl⟩ := hblock
  refine ⟨reps ++ [rep], ?_, by simp⟩
  intro r hr
  rcases List.mem_append.mp hr with hr | hr
  · exact hreps r hr
  · rwa [List.mem_singleton.mp hr]

variable {a b x y : Bytes}

theorem IsString.ne_nil (h : IsString a) : a ≠ [] := by
  obtain ⟨first, cont, body, rfl, -⟩ := h
  simp

theorem IsString.unique (ha : IsString a) (hb : IsString b) (h : a ++ x = b ++ y) : a = b := by
  obtain ⟨first, cont, body, rfl, hspells⟩ := ha
  obtain ⟨first', cont', body', rfl, hspells'⟩ := hb
  simp only [List.cons_append, List.append_assoc, List.cons.injEq] at h
  obtain ⟨rfl, h⟩ := h
  obtain ⟨rfl, hlength⟩ := hspells.unique hspells' h
  have hbody := (List.append_inj (List.append_cancel_left h) hlength).1
  rw [hbody]

theorem Strings.le {k m : ℕ} (ha : Strings k a) (hb : Strings m b) (hle : k ≤ m)
    (h : a ++ x = b ++ y) : ∃ c, Strings (m - k) c ∧ b = a ++ c := by
  induction ha generalizing m b with
  | none => exact ⟨b, by simpa using hb, rfl⟩
  | more first others ih =>
    cases hb with
    | none => omega
    | more first' others' =>
      rw [List.append_assoc, List.append_assoc] at h
      obtain rfl := first.unique first' h
      obtain ⟨c, hc, rfl⟩ := ih others' (by omega) (List.append_cancel_left h)
      refine ⟨c, ?_, by simp⟩
      rwa [Nat.add_sub_add_right]

theorem Strings.concat {k : ℕ} (ha : Strings k a) (hb : IsString b) : Strings (k + 1) (a ++ b) := by
  induction ha with
  | none => simpa using Strings.more hb .none
  | more first others ih => simpa using Strings.more first ih

theorem Strings.eq_nil {c : Bytes} (h : Strings 0 c) : c = [] := by
  cases h
  rfl

theorem Strings.ne_nil {k : ℕ} {c : Bytes} (h : Strings k c) (hk : 0 < k) : c ≠ [] := by
  cases h with
  | none => omega
  | more first others => simp [first.ne_nil]

theorem IsRepresentation.ne_nil (h : IsRepresentation a) : a ≠ [] := by
  obtain ⟨first, cont, v, strings, rfl, -⟩ := h
  simp

theorem IsRepresentation.unique (ha : IsRepresentation a) (hb : IsRepresentation b)
    (h : a ++ x = b ++ y) : a = b := by
  obtain ⟨first, cont, v, strings, rfl, hspells, hstrings⟩ := ha
  obtain ⟨first', cont', v', strings', rfl, hspells', hstrings'⟩ := hb
  simp only [List.cons_append, List.append_assoc, List.cons.injEq] at h
  obtain ⟨rfl, h⟩ := h
  obtain ⟨rfl, rfl⟩ := hspells.unique hspells' h
  obtain ⟨c, hc, rfl⟩ := hstrings.le hstrings' le_rfl (List.append_cancel_left h)
  rw [Nat.sub_self] at hc
  simp [hc.eq_nil]

/-- Of two blocks at one place the shorter is followed by a representation of the longer. -/
theorem IsBlock.next (ha : IsBlock a) (hb : IsBlock b) (h : a ++ x = b ++ y)
    (hlt : a.length < b.length) :
    ∃ rep rest, IsRepresentation rep ∧ x = rep ++ rest ∧ a.length + rep.length ≤ b.length := by
  obtain ⟨reps, hreps, rfl⟩ := ha
  obtain ⟨reps', hreps', rfl⟩ := hb
  induction reps generalizing reps' with
  | nil =>
    cases reps' with
    | nil => simp at hlt
    | cons rep' reps' =>
      refine ⟨rep', reps'.flatten ++ y, hreps' rep' List.mem_cons_self, ?_, by simp⟩
      simpa using h
  | cons rep reps ih =>
    have hrep := hreps rep List.mem_cons_self
    cases reps' with
    | nil => simp at hlt
    | cons rep' reps' =>
      simp only [List.flatten_cons, List.append_assoc] at h
      obtain rfl := hrep.unique (hreps' rep' List.mem_cons_self) h
      obtain ⟨next, rest, hnext, hx, hle⟩ := ih (fun r hr => hreps r (List.mem_cons_of_mem _ hr))
        reps' (fun r hr => hreps' r (List.mem_cons_of_mem _ hr)) (List.append_cancel_left h)
        (by simpa using hlt)
      refine ⟨next, rest, hnext, hx, ?_⟩
      simp only [List.flatten_cons, List.length_append]
      omega

/-- The octets end where a string of a literal ought to begin. -/
def LacksString (octets : Bytes) : Prop :=
  ∃ first cont v strings k, octets = first :: (cont ++ strings) ∧
    PrefixInteger.Spells (prefixWidth first) first cont v ∧ Strings k strings ∧
      k < stringsBehind first v

theorem LacksString.not_representation (h : LacksString (a ++ x)) : ¬IsRepresentation a := by
  rintro ⟨first', cont', v', strings', rfl, hspells', hstrings'⟩
  obtain ⟨first, cont, v, strings, k, hoctets, hspells, hstrings, hk⟩ := h
  simp only [List.cons_append, List.append_assoc, List.cons.injEq] at hoctets
  obtain ⟨rfl, hoctets⟩ := hoctets
  obtain ⟨rfl, rfl⟩ := hspells'.unique hspells hoctets
  have hrest := List.append_cancel_left hoctets
  obtain ⟨c, hc, rfl⟩ := hstrings.le (x := []) (y := x) hstrings' hk.le (by simp [hrest])
  have hnone : c = [] := by
    have hlength := congrArg List.length hrest
    simp only [List.length_append] at hlength
    exact List.length_eq_zero_iff.mp (by omega)
  exact hc.ne_nil (by omega) hnone

/-- The first `n` octets are not cut: before them no string of a literal is missing at the end of the
input, and a representation that begins among them ends there. -/
structure Uncut (src : Bytes) (n : ℕ) : Prop where
  strings : ∀ block rest, IsBlock block → src = block ++ rest → block.length < n →
    ¬LacksString rest
  ends : ∀ block rep rest, IsBlock block → IsRepresentation rep → src = block ++ (rep ++ rest) →
    block.length < n → block.length + rep.length ≤ n

/-- The first `n` octets are whole representations, and `rest` is left. -/
def Splits (src : Bytes) (n : ℕ) (rest : Bytes) : Prop :=
  ∃ block, IsBlock block ∧ block.length = n ∧ src = block ++ rest

theorem Splits.uncut {src rest : Bytes} {n : ℕ} (h : Splits src n rest) : Uncut src n := by
  obtain ⟨whole, hwhole, rfl, rfl⟩ := h
  constructor
  · intro block tail hblock hsrc hlt hlacks
    obtain ⟨rep, more, hrep, rfl, -⟩ := hblock.next hwhole hsrc.symm hlt
    exact hlacks.not_representation hrep
  · intro block rep tail hblock hrep hsrc hlt
    obtain ⟨rep', more, hrep', hnext, hle⟩ := hblock.next hwhole hsrc.symm hlt
    rwa [hrep.unique hrep' hnext]

/-- A string announces `2 ^ 32` octets or more. -/
def WideLength (octets : Bytes) : Prop :=
  ∃ first cont v rest, octets = first :: (cont ++ rest) ∧ PrefixInteger.Spells 7 first cont v ∧
    2 ^ 32 ≤ v

/-- A literal whose index is taken for none, or one of whose strings announces too much. -/
def WideField (octets : Bytes) : Prop :=
  ∃ first cont v rest, octets = first :: (cont ++ rest) ∧
    PrefixInteger.Spells (prefixWidth first) first cont v ∧ IsLiteral first ∧
    (v ≠ 0 ∧ v % 2 ^ 32 = 0 ∨
      ∃ strings k more, rest = strings ++ more ∧ Strings k strings ∧ k < stringsBehind first v ∧
        WideLength more)

def Narrow (src : Bytes) (n : ℕ) : Prop :=
  ∀ block rest, IsBlock block → src = block ++ rest → block.length < n → ¬WideField rest

theorem decodeInteger_spells {buf : UInt8} {src src' : Bytes} {n v l : ℕ}
    (h : decodeInteger buf src n = .ok (some (v, l, src'))) :
    ∃ cont w, src = cont ++ src' ∧ l = cont.length ∧ PrefixInteger.Spells n buf cont w ∧
      v = w % 2 ^ 32 := by
  rw [decodeInteger_eq] at h
  by_cases hfull : buf.toNat % 2 ^ n = 2 ^ n - 1
  · rw [if_neg (not_not.mpr hfull)] at h
    split_ifs at h with hlong hends
    · cases h
      exact ⟨_, _, (PrefixInteger.run_append_drop src).symm, rfl, PrefixInteger.spells_iff.mpr
        (.inr ⟨hfull, PrefixInteger.ends_run hends, PrefixInteger.run_run src, rfl⟩), rfl⟩
    · cases h
  · rw [if_pos hfull] at h
    cases h
    refine ⟨[], _, by simp, rfl, PrefixInteger.spells_iff.mpr (.inl ⟨hfull, rfl, rfl⟩), ?_⟩
    have hoctet := buf.toNat_lt
    have hle := Nat.mod_le buf.toNat (2 ^ n)
    omega

theorem string_of_body {first : UInt8} {cont rest : Bytes} {w : ℕ}
    (h : PrefixInteger.Spells 7 first cont w) (hlength : w ≤ rest.length) :
    ∃ string, IsString string ∧ first :: (cont ++ rest) = string ++ rest.drop w ∧
      1 + cont.length + w = string.length := by
  have hbody : (rest.take w).length = w := by simp [hlength]
  refine ⟨first :: (cont ++ rest.take w), ⟨first, cont, rest.take w, rfl, ?_⟩, by simp, ?_⟩
  · rwa [hbody]
  · rw [List.length_cons, List.length_append, hbody]
    omega

/-- A string that is read is a string, or there was nothing to read, or its length was cut down. -/
theorem decodeString_cases {indet : UInt8} {src src' str : Bytes} {count : ℕ}
    (h : decodeString indet src = .ok (some (str, count), src')) :
    (∃ string, IsString string ∧ src = string ++ src' ∧ count = string.length) ∨
      src = [] ∨ WideLength src := by
  cases src with
  | nil => exact .inr (.inl rfl)
  | cons first tail =>
    unfold decodeString at h
    dsimp only at h
    rw [List.headD_cons, List.tail_cons] at h
    obtain ⟨p, hp, h⟩ := bind_eq_ok.mp h
    cases p with
    | none => cases h
    | some p =>
      obtain ⟨len, l, rest⟩ := p
      obtain ⟨cont, w, rfl, rfl, hspells, rfl⟩ := decodeInteger_spells hp
      by_cases hwide : 2 ^ 32 ≤ w
      · exact .inr (.inr ⟨first, cont, w, rest, rfl, hspells, hwide⟩)
      · have hw : w % 2 ^ 32 = w := Nat.mod_eq_of_lt (by omega)
        dsimp only at h
        rw [hw] at h
        split_ifs at h with hlarge hshort hhuffman hfull
        · cases h
        · cases h
        · simp only [pure_eq_ok, Except.ok.injEq, Prod.mk.injEq, Option.map_eq_some_iff] at h
          obtain ⟨⟨s, -, -, rfl⟩, rfl⟩ := h
          exact .inl (string_of_body hspells (by omega))
        · simp only [pure_eq_ok, Except.ok.injEq, Prod.mk.injEq, Option.some.injEq] at h
          obtain ⟨⟨-, rfl⟩, rfl⟩ := h
          exact .inl (string_of_body hspells (by omega))

def Takes (s s' : DecodeState) (octets : Bytes) : Prop :=
  s.src = octets ++ s'.src ∧ s'.len = s.len + octets.length

variable {indet : ℕ → UInt8} {limit : ℕ} {s s' : DecodeState}

theorem Takes.trans {s'' : DecodeState} (h : Takes s s' a) (h' : Takes s' s'' b) :
    Takes s s'' (a ++ b) := by
  constructor
  · rw [h.1, h'.1, List.append_assoc]
  · rw [h'.2, h.2, List.length_append, Nat.add_assoc]

theorem storeField_takes (s : DecodeState) (key value : Bytes) :
    Takes s (storeField s key value).2 [] := by
  unfold storeField Takes
  split_ifs <;> simp

theorem readString_cases {str : Bytes} (h : readString indet s = .ok (some str, s')) :
    (∃ string, IsString string ∧ Takes s s' string) ∨ s.src = [] ∨ WideLength s.src := by
  unfold readString at h
  obtain ⟨⟨r, src⟩, hr, h⟩ := bind_eq_ok.mp h
  cases r with
  | none => cases h
  | some r =>
    obtain ⟨str', l⟩ := r
    cases h
    rcases decodeString_cases hr with ⟨string, hstring, hsrc, rfl⟩ | hmissing
    · exact .inl ⟨string, hstring, hsrc, rfl⟩
    · exact .inr hmissing

theorem takes_integer {first : UInt8} {n v l : ℕ} {src : Bytes}
    (h : decodeInteger first s.src n = .ok (some (v, l, src))) :
    ∃ cont w, Takes s { s with src := src, len := s.len + l } cont ∧
      PrefixInteger.Spells n first cont w ∧ v = w % 2 ^ 32 := by
  obtain ⟨cont, w, hsrc, rfl, hspells, hv⟩ := decodeInteger_spells h
  exact ⟨cont, w, ⟨hsrc, rfl⟩, hspells, hv⟩

/-- What a round that goes on has taken behind the first octet. -/
def FieldTaken (first : UInt8) (s s' : DecodeState) : Prop :=
  (∃ cont v strings, PrefixInteger.Spells (prefixWidth first) first cont v ∧
    Strings (stringsBehind first v) strings ∧ Takes s s' (cont ++ strings)) ∨
  LacksString (first :: s.src) ∨ WideField (first :: s.src)

theorem decodeIndexed_taken {first : UInt8} (hfirst : 128 ≤ first.toNat)
    (h : decodeIndexed first s = .ok (0, s')) : FieldTaken first s s' := by
  have hliteral : ¬IsLiteral first := by
    unfold IsLiteral
    omega
  unfold decodeIndexed at h
  obtain ⟨p, hp, h⟩ := bind_eq_ok.mp h
  cases p with
  | none => cases h
  | some p =>
    obtain ⟨index, l, src⟩ := p
    obtain ⟨cont, w, htakes, hspells, -⟩ := takes_integer hp
    dsimp only at h
    split_ifs at h with hzero
    · cases h
    · split at h
      · cases h
      · rename_i pair hpair
        simp only [pure_eq_ok, Except.ok.injEq] at h
        have hstore := storeField_takes { s with src := src, len := s.len + l } pair.1 pair.2
        rw [h] at hstore
        refine .inl ⟨cont, w, [], ?_, ?_, htakes.trans hstore⟩
        · simpa [prefixWidth, hfirst] using hspells
        · simpa [stringsBehind, hliteral] using Strings.none

theorem decodeSizeUpdate_taken {first : UInt8} (hlow : 32 ≤ first.toNat) (hhigh : first.toNat < 64)
    (h : decodeSizeUpdate limit first s = .ok (0, s')) : FieldTaken first s s' := by
  have hliteral : ¬IsLiteral first := by
    unfold IsLiteral
    omega
  unfold decodeSizeUpdate at h
  obtain ⟨p, hp, h⟩ := bind_eq_ok.mp h
  cases p with
  | none => cases h
  | some p =>
    obtain ⟨newSize, l, src⟩ := p
    obtain ⟨cont, w, htakes, hspells, -⟩ := takes_integer hp
    dsimp only at h
    split_ifs at h with hlarge
    · cases h
    · obtain ⟨table, -, h⟩ := bind_eq_ok.mp h
      cases h
      have hwidth : prefixWidth first = 5 := by
        unfold prefixWidth
        split_ifs <;> omega
      refine .inl ⟨cont, w, [], ?_, ?_, by simpa [Takes] using htakes⟩
      · rwa [hwidth]
      · simpa [stringsBehind, hliteral] using Strings.none

theorem readString_next {first : UInt8} {cont strings : Bytes} {v k : ℕ} {t : DecodeState}
    {str : Bytes} (hliteral : IsLiteral first)
    (hspells : PrefixInteger.Spells (prefixWidth first) first cont v) (hstrings : Strings k strings)
    (hk : k < stringsBehind first v) (htakes : Takes s t (cont ++ strings))
    (h : readString indet t = .ok (some str, s')) :
    (∃ strings', Strings (k + 1) strings' ∧ Takes s s' (cont ++ strings')) ∨
      LacksString (first :: s.src) ∨ WideField (first :: s.src) := by
  rcases readString_cases h with ⟨string, hstring, htaken⟩ | hnothing | hwide
  · refine .inl ⟨strings ++ string, hstrings.concat hstring, ?_⟩
    simpa using htakes.trans htaken
  · refine .inr (.inl ⟨first, cont, v, strings, k, ?_, hspells, hstrings, hk⟩)
    simp [htakes.1, hnothing]
  · refine .inr (.inr ⟨first, cont, v, strings ++ t.src, ?_, hspells, hliteral,
      .inr ⟨strings, k, t.src, rfl, hstrings, hk, hwide⟩⟩)
    simp [htakes.1]

theorem decodeLiteral_taken {first : UInt8} {isStore : Bool} (hliteral : IsLiteral first)
    (h : decodeLiteral indet (prefixWidth first) isStore first s = .ok (0, s')) :
    FieldTaken first s s' := by
  unfold decodeLiteral at h
  obtain ⟨p, hp, h⟩ := bind_eq_ok.mp h
  cases p with
  | none => cases h
  | some p =>
    obtain ⟨index, l, src⟩ := p
    obtain ⟨cont, w, htakes, hspells, rfl⟩ := takes_integer hp
    obtain ⟨⟨key, s₁⟩, hkey, h⟩ := bind_eq_ok.mp h
    cases key with
    | none => cases h
    | some key =>
      obtain ⟨⟨value, s₂⟩, hvalue, h⟩ := bind_eq_ok.mp h
      cases value with
      | none => cases h
      | some value =>
        have hlast : Takes s₂ s' [] := by
          dsimp only at h
          split_ifs at h
          · obtain ⟨r, -, h⟩ := bind_eq_ok.mp h
            simp only [pure_eq_ok, Except.ok.injEq] at h
            have hstore := storeField_takes { s₂ with table := r.1 } key value
            rwa [h] at hstore
          · simp only [pure_eq_ok, Except.ok.injEq] at h
            have hstore := storeField_takes s₂ key value
            rwa [h] at hstore
        have hstart : Takes s { s with src := src, len := s.len + l } (cont ++ []) := by
          simpa using htakes
        unfold readKey at hkey
        by_cases hindex : w % 2 ^ 32 = 0
        · rw [if_neg (not_not.mpr hindex)] at hkey
          by_cases hw : w = 0
          · -- the name and the value
            have hcount : stringsBehind first w = 2 := by simp [stringsBehind, hliteral, hw]
            rcases readString_next hliteral hspells .none (by omega) hstart hkey with
              ⟨name, hname, hmiddle⟩ | hlost
            · rcases readString_next hliteral hspells hname (by omega) hmiddle hvalue with
                ⟨strings, hstrings, hend⟩ | hlost
              · have hall : Strings (stringsBehind first w) strings := by rwa [hcount]
                exact .inl ⟨cont, w, strings, hspells, hall, by simpa using hend.trans hlast⟩
              · exact .inr hlost
            · exact .inr hlost
          · exact .inr (.inr ⟨first, cont, w, src, by rw [htakes.1], hspells, hliteral,
              .inl ⟨hw, hindex⟩⟩)
        · rw [if_pos hindex] at hkey
          simp only [Except.ok.injEq, Prod.mk.injEq] at hkey
          obtain ⟨-, rfl⟩ := hkey
          have hw : w ≠ 0 := by
            rintro rfl
            exact hindex rfl
          have hcount : stringsBehind first w = 1 := by simp [stringsBehind, hliteral, hw]
          rcases readString_next hliteral hspells .none (by omega) hstart hvalue with
            ⟨strings, hstrings, hend⟩ | hlost
          · have hall : Strings (stringsBehind first w) strings := by rwa [hcount]
            exact .inl ⟨cont, w, strings, hspells, hall, by simpa using hend.trans hlast⟩
          · exact .inr hlost

theorem sizeUpdate_pattern (b : UInt8) : b &&& 0xE0 = 0x20 ↔ 32 ≤ b.toNat ∧ b.toNat < 64 := by
  apply forall_octet (P := fun b => b &&& 0xE0 = 0x20 ↔ 32 ≤ b.toNat ∧ b.toNat < 64)
  decide +kernel

theorem indexing_pattern (b : UInt8) : b &&& 0xC0 = 0x40 ↔ 64 ≤ b.toNat ∧ b.toNat < 128 := by
  apply forall_octet (P := fun b => b &&& 0xC0 = 0x40 ↔ 64 ≤ b.toNat ∧ b.toNat < 128)
  decide +kernel

/-- A round that goes on has taken a representation, or a string was missing or an integer too wide. -/
theorem decodeField_cases (h : decodeField indet limit s = .ok (0, s')) :
    (∃ rep, IsRepresentation rep ∧ Takes s s' rep) ∨ LacksString s.src ∨ WideField s.src := by
  unfold decodeField at h
  split at h
  · cases h
  · rename_i first src hsrc
    rw [hsrc]
    have htaken : FieldTaken first { s with src := src, len := s.len + 1 } s' := by
      by_cases hindexed : first &&& 0x80 = 0
      · have hlow := (high_bit_eq_zero_iff first).mp hindexed
        rw [if_neg (not_not.mpr hindexed)] at h
        split_ifs at h with hupdate hstore
        · obtain ⟨h₁, h₂⟩ := (sizeUpdate_pattern first).mp hupdate
          exact decodeSizeUpdate_taken h₁ h₂ h
        · obtain ⟨h₁, h₂⟩ := (indexing_pattern first).mp hstore
          have hwidth : prefixWidth first = 6 := by
            unfold prefixWidth
            split_ifs <;> omega
          exact decodeLiteral_taken (.inr ⟨h₁, h₂⟩) (hwidth.symm ▸ h)
        · have h₁ := mt (sizeUpdate_pattern first).mpr hupdate
          have h₂ := mt (indexing_pattern first).mpr hstore
          have hwidth : prefixWidth first = 4 := by
            unfold prefixWidth
            split_ifs <;> omega
          exact decodeLiteral_taken (.inl (by omega)) (hwidth.symm ▸ h)
      · rw [if_pos hindexed] at h
        exact decodeIndexed_taken (Nat.not_lt.mp (mt (high_bit_eq_zero_iff first).mpr hindexed)) h
    rcases htaken with ⟨cont, v, strings, hspells, hstrings, htakes⟩ | hlost
    · refine .inl ⟨first :: (cont ++ strings), ⟨first, cont, v, strings, rfl, hspells, hstrings⟩, ?_⟩
      obtain ⟨htail, hcount⟩ := htakes
      dsimp only at htail hcount
      constructor
      · rw [hsrc, htail]
        simp
      · rw [hcount]
        simp
        omega
    · exact .inr hlost

variable {src : Bytes} {n : ℕ}

/-- Whole representations have been taken, and the rounds that are left are enough. -/
theorem decodeFields_splits (huncut : Uncut src n) (hnarrow : Narrow src n) {rounds : ℕ}
    {block : Bytes} (hblock : IsBlock block) (hsrc : src = block ++ s.src)
    (hlen : s.len = block.length) (hle : s.len ≤ n) (hrounds : n ≤ s.len + rounds)
    (h : decodeFields indet n limit rounds s = .ok (0, s')) : Splits src n s'.src := by
  induction rounds generalizing s block with
  | zero =>
    cases h
    exact ⟨block, hblock, by omega, hsrc⟩
  | succ rounds ih =>
    unfold decodeFields at h
    split_ifs at h with hmore
    · obtain ⟨⟨code, s₁⟩, hround, h⟩ := bind_eq_ok.mp h
      dsimp only at h
      split_ifs at h with hcode
      · cases h
        exact absurd rfl hcode
      · obtain rfl : code = 0 := not_not.mp hcode
        rcases decodeField_cases hround with ⟨rep, hrep, htakes⟩ | hlacks | hwide
        · have hshort := huncut.ends block rep s₁.src hblock hrep (htakes.1 ▸ hsrc) (by omega)
          have hpos : 0 < rep.length := List.length_pos_iff.mpr hrep.ne_nil
          have hcount := htakes.2
          refine ih (hblock.concat hrep) ?_ ?_ (by omega) (by omega) h
          · rw [hsrc, htakes.1, List.append_assoc]
          · rw [List.length_append]
            omega
        · exact absurd hlacks (huncut.strings block s.src hblock hsrc (by omega))
        · exact absurd hwide (hnarrow block s.src hblock hsrc (by omega))
    · cases h
      exact ⟨block, hblock, by omega, hsrc⟩

variable {table : DynamicTable} {header : Header} {isResp hasPseudo : Bool}

/-- What `decode` accepts is a sequence of whole representations and all of `content_length`, where
neither the end of the input nor `content_length` cuts one and no integer is cut down; and where one
is cut it is not. -/
theorem decode_splits (h : decode indet src n table header isResp hasPseudo limit = .ok (0, s)) :
    (Uncut src n ∧ Narrow src n → Splits src n s.src) ∧ (Splits src n s.src → Uncut src n) := by
  unfold decode at h
  obtain ⟨⟨code, s₁⟩, hfields, h⟩ := bind_eq_ok.mp h
  dsimp only at h
  split_ifs at h with hcode hverify
  · cases h
    exact absurd rfl hcode
  · cases h
  · cases h
    obtain rfl : code = 0 := not_not.mp hcode
    constructor
    · rintro ⟨huncut, hnarrow⟩
      exact decodeFields_splits huncut hnarrow isBlock_nil rfl rfl (Nat.zero_le n) (by simp) hfields
    · exact Splits.uncut

theorem exists_accepted {r : Except Fault (ℕ × DecodeState)}
    (h : r.toOption.map Prod.fst = some 0) : ∃ s, r = .ok (0, s) := by
  match r, h with
  | .ok (code, s), h =>
    obtain rfl : code = 0 := by simpa [Except.toOption] using h
    exact ⟨s, rfl⟩

/-- `GET https://a/`: three indexed fields and a literal with its value. -/
def wholeRequest : Bytes := [0x82, 0x87, 0x84, 0x01, 0x01, 0x61]

theorem decode_splits_wholeRequest :
    ∃ s : DecodeState, (Uncut wholeRequest 6 ∧ Narrow wholeRequest 6 → Splits wholeRequest 6 s.src) ∧
      (Splits wholeRequest 6 s.src → Uncut wholeRequest 6) := by
  have haccepted : ∃ s, decode (fun _ => 0) wholeRequest 6 {} {} false = .ok (0, s) :=
    exists_accepted (by decide +kernel)
  obtain ⟨s, hs⟩ := haccepted
  exact ⟨s, decode_splits hs⟩

/-- A literal without its value at the end of the block, and a zero where its length would be. -/
theorem decode_cutRequest :
    ∃ s, decode (fun _ => 0) (wholeRequest ++ [0x5F]) 7 {} {} false = .ok (0, s) ∧
      ¬Splits (wholeRequest ++ [0x5F]) 7 s.src := by
  have haccepted : ∃ s, decode (fun _ => 0) (wholeRequest ++ [0x5F]) 7 {} {} false = .ok (0, s) :=
    exists_accepted (by decide +kernel)
  obtain ⟨s, hs⟩ := haccepted
  refine ⟨s, hs, fun hsplits => ?_⟩
  have hindexed : ∀ b ∈ ([0x82, 0x87, 0x84] : Bytes), IsRepresentation [b] := by
    intro b hb
    refine ⟨b, [], b.toNat % 128, [], rfl, ?_, ?_⟩
    · revert b
      decide
    · have hnone : stringsBehind b (b.toNat % 128) = 0 := by
        revert b
        decide
      exact hnone.symm ▸ .none
  have hliteral : IsRepresentation [0x01, 0x01, 0x61] :=
    ⟨0x01, [], 1, [0x01, 0x61] ++ [], rfl, by decide,
      .more ⟨0x01, [], [0x61], rfl, by decide⟩ .none⟩
  have hblock : IsBlock wholeRequest := by
    refine ⟨[[0x82], [0x87], [0x84], [0x01, 0x01, 0x61]], ?_, rfl⟩
    simp [hindexed, hliteral]
  exact hsplits.uncut.strings wholeRequest [0x5F] hblock rfl (by decide)
    ⟨0x5F, [], 31, [], 0, rfl, by decide, .none, by decide⟩

end HPackUtil
end Sese.Net.Http
