import Mathlib.Data.List.TakeWhile
import Sese.Net.Http.HPackIntegers
import Sese.Net.Http.HuffmanStrings

/-!
# Two ends of one connection stay in step

The encoder of one end and the decoder of the other, each with its dynamic
table, over any number of header blocks. A field is handed over unchanged when
it is `fieldOk` for the table it meets, a block when all its fields are, and
then the tables are equal again after the block.

The conditions name the inputs on which the code goes wrong: an indexed field
with index 127 or more, whose last octet `encodeIndexCase0` forgets; the
placeholder name with index 0; short literals with a NUL and long ones with an
ambiguous Huffman octet; names that sort before the pseudo-header fields; and
evictions that run into the empty queue.
-/
namespace Sese.Net.Http
namespace HPackUtil

open Foundation

/-- A literal that `decodeString` reads back: short strings are sent as they are
and cut at a NUL, long strings are Huffman coded. -/
def literalOk (s : Bytes) : Bool :=
  if s.length > 8 then s.all fun b => b.toNat ∉ ambiguousOctets else (0 : UInt8) ∉ s

/-- The literal of the string has at most 65535 octets after its length. -/
def Encodable (s : Bytes) : Prop := s.length > 8 → (huffmanEncode s).length ≤ 65535

instance (s : Bytes) : Decidable (Encodable s) := inferInstanceAs (Decidable (_ → _))

theorem huffman_flag : ∀ i < 128, (0x80 ||| UInt8.ofNat i) &&& 0x80 = (0x80 : UInt8) := by decide

theorem plain_flag : ∀ i < 128, (0x00 ||| UInt8.ofNat i) &&& 0x80 ≠ (0x80 : UInt8) := by decide

theorem decodeString_eq {s : Bytes} (henc : Encodable s) (indet : UInt8) (rest : Bytes) :
    decodeString indet (encodeString s ++ rest) =
      .ok ((if s.length > 8 then huffmanDecode (huffmanEncode s) else some (cstr s)).map
        fun t => (t, (encodeString s).length), rest) := by
  by_cases hlong : s.length > 8
  · have hlen := henc hlong
    obtain ⟨i, hi, out, hout, hdec⟩ := decodeInteger_encodePrefixed (by decide : (0x80, 7) ∈ prefixes)
      (huffmanEncode s).length (by omega) (huffmanEncode s ++ rest)
    have hflag := huffman_flag i hi
    have hcount : 1 + out.length + (huffmanEncode s).length =
        out.length + (huffmanEncode s).length + 1 := by omega
    simp only [encodeString, if_pos hlong, hout, decodeString, List.cons_append, List.headD_cons,
      List.tail_cons, List.append_assoc, hdec, ok_bind, hflag]
    simp [Nat.not_lt.mpr hlen, hcount]
  · obtain ⟨i, hi, out, hout, hdec⟩ := decodeInteger_encodePrefixed (by decide : (0x00, 7) ∈ prefixes)
      s.length (by omega) (s ++ rest)
    have hflag := plain_flag i hi
    have h₁ : ¬ s.length > 65535 := by omega
    have h₂ : ¬ s.length = 65535 := by omega
    have hcount : 1 + out.length + s.length = out.length + s.length + 1 := by omega
    simp only [encodeString, if_neg hlong, hout, decodeString, List.cons_append, List.headD_cons,
      List.tail_cons, List.append_assoc, hdec, ok_bind, if_neg hflag]
    simp [h₁, h₂, hcount]

theorem decodeString_encodeString {s : Bytes} (hok : literalOk s) (henc : Encodable s)
    (indet : UInt8) (rest : Bytes) :
    decodeString indet (encodeString s ++ rest) =
      .ok (some (s, (encodeString s).length), rest) := by
  rw [decodeString_eq henc]
  by_cases hlong : s.length > 8
  · have hlen := henc hlong
    have hcode : huffmanDecode (huffmanEncode s) = some s := by
      apply huffmanDecode_encode _ (by omega)
      simpa [literalOk, hlong] using hok
    simp [hlong, hcode]
  · have hnul : (0 : UInt8) ∉ s := by simpa [literalOk, hlong] using hok
    simp [hlong, cstr_eq_self hnul]

theorem cstr_eq_self_iff {s : Bytes} : cstr s = s ↔ (0 : UInt8) ∉ s := by
  constructor
  · intro h hmem
    rw [← h] at hmem
    simpa using List.mem_takeWhile_imp hmem
  · exact cstr_eq_self

/-- Exactly the strings that are `literalOk` are read back from their literals. -/
theorem literal_roundTrips_iff (s : Bytes) (henc : Encodable s) :
    (∀ indet rest, decodeString indet (encodeString s ++ rest) =
      .ok (some (s, (encodeString s).length), rest)) ↔ literalOk s := by
  constructor
  · intro h
    have hread := decodeString_eq henc 0 []
    rw [List.append_nil] at hread
    have hback := h 0 []
    rw [List.append_nil, hread] at hback
    simp only [Except.ok.injEq, Prod.mk.injEq, and_true] at hback
    by_cases hlong : s.length > 8
    · by_contra hambiguous
      have hlost : ∃ x ∈ s, x.toNat ∈ ambiguousOctets := by simpa [literalOk, hlong] using hambiguous
      apply huffmanDecode_encode_ne hlost
      simpa [hlong] using hback
    · simp only [hlong, if_false] at hback
      simpa [literalOk, hlong, cstr_eq_self_iff] using hback
  · intro hok indet rest
    exact decodeString_encodeString hok henc indet rest

theorem literal_roundTrips_html : decodeString 0 (encodeString (bytes "text/html") ++ [0x82]) =
    .ok (some (bytes "text/html", (encodeString (bytes "text/html")).length), [0x82]) :=
  (literal_roundTrips_iff (bytes "text/html") (by decide +kernel)).mpr (by decide +kernel) 0 [0x82]

/-- A literal with a NUL in it is cut there. -/
theorem literal_nul_cut : decodeString 0 (encodeString [97, 0, 98]) ≠
    .ok (some ([97, 0, 98], (encodeString [97, 0, 98]).length), []) := by
  decide

/-- What the search loops found: an exact entry, or an entry with the same name. -/
theorem lookup_spec (key value : Bytes) (entries : List (Bytes × Bytes)) (start : ℕ)
    (byKey : Option ℕ) :
    (∀ i, (lookup key value entries start byKey).2 = some i →
      start ≤ i ∧ entries[i - start]? = some (key, value)) ∧
    (∀ i, (lookup key value entries start byKey).1 = some i → byKey = some i ∨
      start ≤ i ∧ ∃ v, entries[i - start]? = some (key, v)) := by
  induction entries generalizing start byKey with
  | nil => simp [lookup]
  | cons e entries ih =>
    have hshift : ∀ i x, start + 1 ≤ i → entries[i - (start + 1)]? = some x →
        start ≤ i ∧ (e :: entries)[i - start]? = some x := by
      intro i x hi hx
      refine ⟨by omega, ?_⟩
      rwa [show i - start = i - (start + 1) + 1 by omega, List.getElem?_cons_succ]
    unfold lookup
    split_ifs with hkey hvalue
    · have he : e = (key, value) := Prod.ext hkey hvalue
      refine ⟨fun i hi => ?_, fun i hi => .inr ?_⟩ <;> cases hi
      · simp [he]
      · simp [he]
    · have h := ih (start + 1) (some start)
      refine ⟨fun i hi => hshift i _ (h.1 i hi).1 (h.1 i hi).2, fun i hi => ?_⟩
      rcases h.2 i hi with hs | ⟨hle, v, hv⟩
      · cases hs
        exact .inr ⟨le_rfl, e.2, by simp [← hkey]⟩
      · exact .inr ⟨(hshift i _ hle hv).1, v, (hshift i _ hle hv).2⟩
    · have h := ih (start + 1) byKey
      refine ⟨fun i hi => hshift i _ (h.1 i hi).1 (h.1 i hi).2, fun i hi => ?_⟩
      rcases h.2 i hi with hs | ⟨hle, v, hv⟩
      · exact .inl hs
      · exact .inr ⟨(hshift i _ hle hv).1, v, (hshift i _ hle hv).2⟩

theorem lookup_exact {key value : Bytes} {entries : List (Bytes × Bytes)} {k : Option ℕ} {i : ℕ}
    (h : lookup key value entries 0 none = (k, some i)) : entries[i]? = some (key, value) :=
  ((lookup_spec key value entries 0 none).1 i (by rw [h])).2

theorem lookup_name {key value : Bytes} {entries : List (Bytes × Bytes)} {a : Option ℕ} {i : ℕ}
    (h : lookup key value entries 0 none = (some i, a)) : ∃ v, entries[i]? = some (key, v) := by
  rcases (lookup_spec key value entries 0 none).2 i (by rw [h]) with hn | ⟨-, hv⟩
  · cases hn
  · exact hv

/-- The field is handed over unchanged to a decoder with the same table. -/
def fieldOk (table : DynamicTable) (item : Bytes × Bytes) : Bool :=
  match lookup item.1 item.2 table.queue 0 none with
  | (_, some i) => dynamicIndex table i < 127
  | (some i, none) => literalOk item.2 && decide (dynamicIndex table i < 2 ^ 32)
  | (none, none) =>
    match lookup item.1 item.2 predefinedHeaders 0 none with
    | (_, some i) => i ≠ 0
    | (some i, none) => decide (i ≠ 0) && literalOk item.2
    | (none, none) => literalOk item.1 && literalOk item.2

theorem indexed_pattern : ∀ i < 2 ^ 7, (0x80 ||| UInt8.ofNat i) &&& 0x80 ≠ 0 := by decide

theorem literal_pattern : ∀ i < 2 ^ 6, (0x40 ||| UInt8.ofNat i) &&& 0x80 = 0 ∧
    (0x40 ||| UInt8.ofNat i) &&& 0xE0 ≠ 0x20 ∧ (0x40 ||| UInt8.ofNat i) &&& 0xC0 = 0x40 := by
  decide

section Field

variable (indet : ℕ → UInt8) (limit : ℕ) (rest : Bytes) (len : ℕ) (table : DynamicTable)
  (header : Header) (hasPseudo : Bool)

theorem decodeField_indexed {index : ℕ} {e : Bytes × Bytes} (hlt : index < 127) (hne : index ≠ 0)
    (hget : table.get index = some e) :
    decodeField indet limit ⟨encodeIndexCase0 index ++ rest, len, table, header, hasPseudo⟩ =
      .ok (storeField ⟨rest, len + (encodeIndexCase0 index).length, table, header, hasPseudo⟩
        e.1 e.2) := by
  obtain ⟨i, hi, out, hout, hdec⟩ := decodeInteger_encodePrefixed
    (by decide : (0x80, 7) ∈ prefixes) index (by omega) rest
  have hpattern := indexed_pattern i hi
  rw [encodeIndexCase0_eq hlt, hout]
  simp only [decodeField, List.cons_append, if_pos hpattern, decodeIndexed, hdec, ok_bind,
    if_neg hne, hget, pure_eq_ok, List.length_cons]
  rw [show len + 1 + out.length = len + (out.length + 1) by omega]

theorem decodeField_named {index : ℕ} {key v value : Bytes} {stored : DynamicTable × Bool}
    (hlt : index < 2 ^ 32) (hne : index ≠ 0) (hget : table.get index = some (key, v))
    (hval : literalOk value) (henc : Encodable value) (hset : table.set key value = .ok stored) :
    decodeField indet limit
        ⟨encodeIndexCase1 index ++ encodeString value ++ rest, len, table, header, hasPseudo⟩ =
      .ok (storeField ⟨rest, len + (encodeIndexCase1 index ++ encodeString value).length, stored.1,
        header, hasPseudo⟩ key value) := by
  obtain ⟨i, hi, out, hout, hdec⟩ := decodeInteger_encodePrefixed
    (by decide : (0x40, 6) ∈ prefixes) index hlt (encodeString value ++ rest)
  obtain ⟨h₁, h₂, h₃⟩ := literal_pattern i hi
  unfold encodeIndexCase1
  rw [hout]
  simp only [decodeField, List.cons_append, List.append_assoc, h₁, ne_eq, not_true, if_false,
    if_neg h₂, h₃, if_true, decodeLiteral, hdec, ok_bind, readKey, if_pos hne, hget,
    Option.map_some, pure_eq_ok, readString, decodeString_encodeString hval henc, hset,
    List.length_cons, List.length_append]
  rw [show len + 1 + out.length + (encodeString value).length =
    len + (out.length + (encodeString value).length + 1) by omega]

theorem decodeField_literal {key value : Bytes} {stored : DynamicTable × Bool}
    (hkey : literalOk key) (hkenc : Encodable key) (hval : literalOk value)
    (henc : Encodable value) (hset : table.set key value = .ok stored) :
    decodeField indet limit ⟨encodeIndexCase1 0 ++ encodeString key ++ encodeString value ++ rest,
        len, table, header, hasPseudo⟩ =
      .ok (storeField ⟨rest, len + (encodeIndexCase1 0 ++ encodeString key ++
        encodeString value).length, stored.1, header, hasPseudo⟩ key value) := by
  obtain ⟨i, hi, out, hout, hdec⟩ := decodeInteger_encodePrefixed
    (by decide : (0x40, 6) ∈ prefixes) 0 (by decide) (encodeString key ++ (encodeString value ++ rest))
  obtain ⟨h₁, h₂, h₃⟩ := literal_pattern i hi
  unfold encodeIndexCase1
  rw [hout]
  simp only [decodeField, List.cons_append, List.append_assoc, h₁, ne_eq, not_true, if_false,
    if_neg h₂, h₃, if_true, decodeLiteral, hdec, ok_bind, readKey, readString, pure_eq_ok,
    decodeString_encodeString hkey hkenc, decodeString_encodeString hval henc, hset,
    List.length_cons, List.length_append]
  rw [show len + 1 + out.length + (encodeString key).length + (encodeString value).length =
    len + (out.length + ((encodeString key).length + (encodeString value).length) + 1) by omega]

/-- One round of the decoder undoes one round of the encoder, and both leave the
same table. -/
theorem decodeField_encodeIndexed {item : Bytes × Bytes} {out : Bytes} {table' : DynamicTable}
    (hok : fieldOk table item) (hkey : Encodable item.1) (hvalue : Encodable item.2)
    (henc : encodeIndexed table item = .ok (out, table')) :
    decodeField indet limit ⟨out ++ rest, len, table, header, hasPseudo⟩ =
      .ok (storeField ⟨rest, len + out.length, table', header, hasPseudo⟩ item.1 item.2) := by
  unfold fieldOk at hok
  unfold encodeIndexed at henc
  split at hok
  · rename_i k i hl
    rw [hl] at henc
    cases henc
    have hget : table.get (dynamicIndex table i) = some item := table.get_queue (lookup_exact hl)
    exact decodeField_indexed indet limit rest len table header hasPseudo (by simpa using hok)
      (by simp [dynamicIndex, predefinedHeaders]) hget
  · rename_i i hl
    rw [hl] at henc
    obtain ⟨v, hv⟩ := lookup_name hl
    have hget : table.get (dynamicIndex table i) = some (item.1, v) := table.get_queue hv
    obtain ⟨stored, hset, heq⟩ := bind_eq_ok.mp henc
    cases heq
    simp only [Bool.and_eq_true, decide_eq_true_eq] at hok
    exact decodeField_named indet limit rest len table header hasPseudo hok.2
      (by simp [dynamicIndex, predefinedHeaders]) hget hok.1 hvalue hset
  · rename_i hl
    rw [hl] at henc
    dsimp only at henc
    split at hok
    · rename_i k i hs
      rw [hs] at henc
      cases henc
      have hentry := lookup_exact hs
      have hi : i < 62 := (List.getElem?_eq_some_iff.mp hentry).1
      exact decodeField_indexed indet limit rest len table header hasPseudo (by omega)
        (by simpa using hok) (table.get_predefined (by simpa using hok) hentry)
    · rename_i i hs
      rw [hs] at henc
      obtain ⟨v, hv⟩ := lookup_name hs
      have hi : i < 62 := (List.getElem?_eq_some_iff.mp hv).1
      obtain ⟨stored, hset, heq⟩ := bind_eq_ok.mp henc
      cases heq
      simp only [Bool.and_eq_true, decide_eq_true_eq] at hok
      exact decodeField_named indet limit rest len table header hasPseudo (by omega) hok.1
        (table.get_predefined hok.1 hv) hok.2 hvalue hset
    · rename_i hs
      rw [hs] at henc
      obtain ⟨stored, hset, heq⟩ := bind_eq_ok.mp henc
      cases heq
      simp only [Bool.and_eq_true] at hok
      exact decodeField_literal indet limit rest len table header hasPseudo hok.1 hkey hok.2
        hvalue hset

end Field

/-- The field is in the tables as it is and is sent as an index alone. -/
def isStored (table : DynamicTable) (item : Bytes × Bytes) : Bool :=
  match lookup item.1 item.2 table.queue 0 none with
  | (_, some _) => true
  | (some _, none) => false
  | (none, none) => (lookup item.1 item.2 predefinedHeaders 0 none).2.isSome

/-- The table after a field: fields that are not stored yet are added. -/
def tableAfter (table : DynamicTable) (item : Bytes × Bytes) : Except Fault DynamicTable :=
  if isStored table item then .ok table else Prod.fst <$> table.set item.1 item.2

theorem encodePrefixed_ne_nil (pattern : UInt8) (n index : ℕ) :
    encodePrefixed pattern n index ≠ [] := by
  unfold encodePrefixed
  split_ifs <;> simp

theorem encodeIndexCase0_ne_nil (index : ℕ) : encodeIndexCase0 index ≠ [] := by
  unfold encodeIndexCase0
  split_ifs <;> simp

theorem encodeIndexed_of_tableAfter {table table' : DynamicTable} {item : Bytes × Bytes}
    (h : tableAfter table item = .ok table') :
    ∃ out, encodeIndexed table item = .ok (out, table') ∧ out ≠ [] := by
  unfold tableAfter isStored at h
  unfold encodeIndexed
  have hset : ∀ out : Bytes, out ≠ [] → Prod.fst <$> table.set item.1 item.2 = .ok table' →
      ∃ o, (do let r ← table.set item.1 item.2; return (out, r.1) : Except Fault _) =
        .ok (o, table') ∧ o ≠ [] := by
    intro out hne hs
    cases hr : table.set item.1 item.2 with
    | error e => simp [hr] at hs
    | ok r =>
      rw [hr] at hs
      cases hs
      exact ⟨out, rfl, hne⟩
  have hcase1 : ∀ (i : ℕ) (tail : Bytes), encodeIndexCase1 i ++ tail ≠ [] := by
    intro i tail
    exact List.append_ne_nil_of_left_ne_nil (encodePrefixed_ne_nil _ _ _) _
  generalize lookup item.1 item.2 table.queue 0 none = found at h ⊢
  obtain ⟨name, field⟩ := found
  cases field with
  | some i =>
    cases h
    exact ⟨_, rfl, encodeIndexCase0_ne_nil _⟩
  | none =>
    cases name with
    | some i => exact hset _ (hcase1 _ _) h
    | none =>
      generalize lookup item.1 item.2 predefinedHeaders 0 none = found at h ⊢
      obtain ⟨name, field⟩ := found
      cases field with
      | some i =>
        cases h
        exact ⟨_, rfl, encodeIndexCase0_ne_nil _⟩
      | none =>
        cases name with
        | some i => exact hset _ (hcase1 _ _) h
        | none => exact hset _ (by rw [List.append_assoc]; exact hcase1 _ _) h

def isPseudo (item : Bytes × Bytes) : Bool := item.1.head? = some 58

def nameOk (item : Bytes × Bytes) : Prop :=
  item.1 ≠ [] ∧ strcmpDoNotCase item.1 (bytes "Cookie") = false ∧ 58 ≤ (item.1.headD 0).toNat

theorem le_tolower (b : UInt8) : b.toNat ≤ tolower b := by
  unfold tolower
  split_ifs <;> omega

theorem isPseudo_of_lt {a b : Bytes × Bytes} (ha : nameOk a) (hb : isPseudo b)
    (hlt : foldCase a.1 < foldCase b.1) : isPseudo a := by
  obtain ⟨hne, -, hge⟩ := ha
  obtain ⟨na, va⟩ := a
  obtain ⟨nb, vb⟩ := b
  cases na with
  | nil => exact absurd rfl hne
  | cons x xs =>
    cases nb with
    | nil => simp [isPseudo] at hb
    | cons y ys =>
      have hy : y = 58 := by simpa [isPseudo] using hb
      subst hy
      have hx0 : x ≠ 0 := by
        rintro rfl
        simp at hge
      have hle := le_tolower x
      simp only [List.headD_cons] at hge
      have hfx : foldCase (x :: xs) = tolower x :: foldCase xs := by simp [foldCase, cstr, hx0]
      have hfy : foldCase (58 :: ys) = 58 :: foldCase ys := by simp [foldCase, cstr, tolower]
      simp only [hfx, hfy, List.cons_lt_cons_iff] at hlt
      have hx : x.toNat = 58 := by omega
      have : x = 58 := UInt8.toNat_inj.mp (by simpa using hx)
      simp [isPseudo, this]

theorem storeField_append {s : DecodeState} {item : Bytes × Bytes} (hname : nameOk item)
    (hlast : ∀ e ∈ s.header.headers.entries, foldCase e.1 < foldCase item.1)
    (hpseudo : isPseudo item → s.hasPseudo) :
    ∃ header, storeField s item.1 item.2 =
        (0, { s with header := header, hasPseudo := s.hasPseudo && isPseudo item }) ∧
      header.headers.entries = s.header.headers.entries ++ [item] ∧
      header.cookies = s.header.cookies := by
  have hnew : s.header.exist item.1 = false := by
    have hnone := (s.header.headers.find?_eq_none_iff item.1).mpr fun e he => (hlast e he).ne
    simp [Header.exist, Foundation.OrdMap.contains, hnone]
  refine ⟨s.header.set item.1 item.2, ?_, ?_, rfl⟩
  · by_cases hp : isPseudo item
    · have hh : item.1.head? = some 58 := by simpa [isPseudo] using hp
      simp [storeField, hname.2.1, hh, hpseudo hp, setHeader, hnew, hp]
    · have hh : item.1.head? ≠ some 58 := by simpa [isPseudo] using hp
      simp [storeField, hname.2.1, hh, hp]
  · exact Foundation.OrdMap.insertEntry_append item.2 hlast

/-- Every field of a block is handed over unchanged, each with the table that the
fields before it leave. -/
def fieldsOk : DynamicTable → List (Bytes × Bytes) → Bool
  | _, [] => true
  | table, item :: items =>
    fieldOk table item &&
      match tableAfter table item with
      | .ok table => fieldsOk table items
      | .error _ => false

def tableAfterBlock : DynamicTable → List (Bytes × Bytes) → Except Fault DynamicTable :=
  List.foldlM tableAfter

theorem encodeFields_of_fieldsOk {table : DynamicTable} {items : List (Bytes × Bytes)}
    (hok : fieldsOk table items) :
    ∃ out table', encodeFields table items = .ok (out, table') ∧
      tableAfterBlock table items = .ok table' := by
  induction items generalizing table with
  | nil => exact ⟨[], table, rfl, rfl⟩
  | cons item items ih =>
    simp only [fieldsOk, Bool.and_eq_true] at hok
    cases ht : tableAfter table item with
    | error e => simp [ht] at hok
    | ok next =>
      simp only [ht] at hok
      obtain ⟨one, hone, -⟩ := encodeIndexed_of_tableAfter ht
      obtain ⟨more, table', hmore, hafter⟩ := ih hok.2
      refine ⟨one ++ more, table', ?_, ?_⟩
      · simp [encodeFields, hone, hmore]
      · simpa [tableAfterBlock, List.foldlM_cons, ht] using hafter

/-- A header block is read back by a decoder that starts with the same table. The
induction is over the fields still to be read; `header` holds those already read,
and `has_pseudo` says that these were pseudo-header fields. -/
theorem decodeFields_encodeFields (indet : ℕ → UInt8) (limit total : ℕ)
    {items : List (Bytes × Bytes)} {table table' : DynamicTable} {out : Bytes}
    {rounds len : ℕ} {header : Header}
    (hok : fieldsOk table items) (henc : encodeFields table items = .ok (out, table'))
    (hstr : ∀ item ∈ items, Encodable item.1 ∧ Encodable item.2)
    (hname : ∀ item ∈ header.headers.entries ++ items, nameOk item)
    (hsorted : (header.headers.entries ++ items).Pairwise fun a b => foldCase a.1 < foldCase b.1)
    (hlen : len + out.length = total) (hrounds : out.length ≤ rounds) :
    ∃ s, decodeFields indet total limit rounds
        ⟨out, len, table, header, header.headers.entries.all isPseudo⟩ = .ok (0, s) ∧
      s.table = table' ∧ s.header.headers.entries = header.headers.entries ++ items ∧
      s.header.cookies = header.cookies := by
  induction items generalizing table out rounds len header with
  | nil =>
    cases henc
    have hdone : ¬ len < total := by simp at hlen; omega
    refine ⟨⟨[], len, table', header, header.headers.entries.all isPseudo⟩, ?_, rfl,
      (List.append_nil _).symm, rfl⟩
    cases rounds with
    | zero => rfl
    | succ rounds => rw [decodeFields, if_neg hdone]
  | cons item items ih =>
    simp only [fieldsOk, Bool.and_eq_true] at hok
    cases ht : tableAfter table item with
    | error e => simp [ht] at hok
    | ok next =>
      simp only [ht] at hok
      obtain ⟨one, hone, hne⟩ := encodeIndexed_of_tableAfter ht
      simp only [encodeFields, hone, ok_bind] at henc
      obtain ⟨⟨more, last⟩, hmore, heq⟩ := bind_eq_ok.mp henc
      cases heq
      have hpos : 0 < one.length := List.length_pos_iff.mpr hne
      simp only [List.length_append] at hlen hrounds
      obtain ⟨rounds, rfl⟩ : ∃ r, rounds = r + 1 := ⟨rounds - 1, by omega⟩
      have hthis := hstr item List.mem_cons_self
      have hfield := decodeField_encodeIndexed indet limit more len table header
        (header.headers.entries.all isPseudo) hok.1 hthis.1 hthis.2 hone
      -- the fields already read sort before this one
      have hlast : ∀ e ∈ header.headers.entries, foldCase e.1 < foldCase item.1 := by
        intro e he
        exact (List.pairwise_append.mp hsorted).2.2 e he item List.mem_cons_self
      have hpseudo : isPseudo item → header.headers.entries.all isPseudo := by
        intro hp
        refine List.all_eq_true.mpr fun e he => ?_
        exact isPseudo_of_lt (hname e (List.mem_append_left _ he)) hp (hlast e he)
      obtain ⟨header', hstore, hentries, hcookies⟩ := storeField_append
        (s := ⟨more, len + one.length, next, header, header.headers.entries.all isPseudo⟩)
        (hname item (by simp)) hlast hpseudo
      have hflag : (header.headers.entries.all isPseudo && isPseudo item) =
          header'.headers.entries.all isPseudo := by simp [hentries]
      have hname' : ∀ e ∈ header'.headers.entries ++ items, nameOk e := by
        simpa [hentries] using hname
      have hsorted' : (header'.headers.entries ++ items).Pairwise
          fun a b => foldCase a.1 < foldCase b.1 := by
        simpa [hentries] using hsorted
      have hlen' : len + one.length + more.length = total := by omega
      have hrounds' : more.length ≤ rounds := by omega
      obtain ⟨s, hs, htable, hheader, hcook⟩ := ih hok.2 hmore
        (fun i hi => hstr i (List.mem_cons_of_mem _ hi)) hname' hsorted' hlen' hrounds'
      refine ⟨s, ?_, htable, by simp [hheader, hentries], hcook.trans hcookies⟩
      have hmoreToRead : len < total := by omega
      rw [decodeFields, if_pos hmoreToRead, hfield, ok_bind, hstore]
      simpa [hflag] using hs

/-- The header sets that a server may answer with. -/
structure IsResponse (h : Header) : Prop where
  status : h.exist (bytes ":status")
  noRequest : ∀ name ∈ reqPseudoHeader, h.exist name = false
  noCookies : h.cookies = none
  names : ∀ item ∈ h.headers.entries, item.1 ≠ [] ∧
    strcmpDoNotCase item.1 (bytes "Cookie") = false
  encodable : ∀ item ∈ h.headers.entries, Encodable item.1 ∧ Encodable item.2

instance (h : Header) : Decidable (IsResponse h) :=
  decidable_of_iff (h.exist (bytes ":status") ∧ (∀ name ∈ reqPseudoHeader, h.exist name = false) ∧
      h.cookies = none ∧
      (∀ item ∈ h.headers.entries, item.1 ≠ [] ∧
        strcmpDoNotCase item.1 (bytes "Cookie") = false) ∧
      ∀ item ∈ h.headers.entries, Encodable item.1 ∧ Encodable item.2)
    ⟨fun ⟨h₁, h₂, h₃, h₄, h₅⟩ => ⟨h₁, h₂, h₃, h₄, h₅⟩,
      fun ⟨h₁, h₂, h₃, h₄, h₅⟩ => ⟨h₁, h₂, h₃, h₄, h₅⟩⟩

def pseudoFirst (h : Header) : Bool :=
  h.headers.entries.all fun item => 58 ≤ (item.1.headD 0).toNat

/-- Every block of the connection can be handed over, each with the table that
the blocks before it leave. -/
def connectionOk : DynamicTable → List Header → Bool
  | _, [] => true
  | table, h :: hs =>
    pseudoFirst h && fieldsOk table h.headers.entries &&
      match tableAfterBlock table h.headers.entries with
      | .ok table => connectionOk table hs
      | .error _ => false

/-- Block after block, `encode` with the table `e` and `decode` with the table
`d`: the decoder returns 0 and the header that was sent, and the tables are equal
after each block. -/
def RoundTrips (formatExpires : ℕ → Bytes) :
    DynamicTable → DynamicTable → List Header → Prop
  | _, _, [] => True
  | e, d, h :: hs =>
    ∃ out e' d', encode formatExpires e {} h = .ok (out, e') ∧
      (∀ indet, ∃ s, decode indet out out.length d {} true = .ok (0, s) ∧
        s.header = h ∧ s.table = d') ∧
      d' = e' ∧ RoundTrips formatExpires e' d' hs

theorem encode_eq_encodeFields (formatExpires : ℕ → Bytes) {h : Header} {table table' : DynamicTable}
    {out : Bytes} (hcookies : h.cookies = none)
    (henc : encodeFields table h.headers.entries = .ok (out, table')) :
    encode formatExpires table {} h = .ok (out, table') := by
  simp [encode, henc, hcookies, encodeCookies, OrdMap.empty]

/-- One block, with equal tables at both ends. -/
theorem decode_encode (formatExpires : ℕ → Bytes) {h : Header} {table : DynamicTable}
    (hresp : IsResponse h) (hfirst : pseudoFirst h) (hok : fieldsOk table h.headers.entries) :
    ∃ out table', encode formatExpires table {} h = .ok (out, table') ∧
      tableAfterBlock table h.headers.entries = .ok table' ∧
      ∀ indet, ∃ s, decode indet out out.length table {} true = .ok (0, s) ∧
        s.header = h ∧ s.table = table' := by
  obtain ⟨out, table', henc, hafter⟩ := encodeFields_of_fieldsOk hok
  refine ⟨out, table', encode_eq_encodeFields formatExpires hresp.noCookies henc, hafter, ?_⟩
  intro indet
  have hname : ∀ item ∈ ({} : Header).headers.entries ++ h.headers.entries, nameOk item := by
    intro item hitem
    have hmem : item ∈ h.headers.entries := hitem
    have hcolon := List.all_eq_true.mp hfirst item hmem
    exact ⟨(hresp.names item hmem).1, (hresp.names item hmem).2, by simpa using hcolon⟩
  obtain ⟨s, hs, htable, hentries, hcook⟩ := decodeFields_encodeFields indet 8192 out.length hok
    henc hresp.encodable hname h.headers.sorted (Nat.zero_add _) le_rfl
  have hheader : s.header = h := by
    apply Header.ext
    · exact OrdMap.ext hentries
    · rw [hcook, hresp.noCookies]
  have hverify : verifyHeader h true = true := by
    have hnone : reqPseudoHeader.any h.exist = false :=
      List.any_eq_false.mpr fun name hmem => by simp [hresp.noRequest name hmem]
    simp [verifyHeader, hnone, hresp.status]
  have hrun : decodeFields indet out.length 8192 out.length
      { src := out, table := table } = .ok (0, s) := hs
  exact ⟨s, by simp [decode, hrun, hheader, hverify], hheader, htable⟩

/-- Two ends that start with equal tables stay in step over the whole connection. -/
theorem connection_roundTrips (formatExpires : ℕ → Bytes) (e d : DynamicTable) (hs : List Header)
    (hequal : e = d) (hresp : ∀ h ∈ hs, IsResponse h) (hok : connectionOk e hs) :
    RoundTrips formatExpires e d hs := by
  subst hequal
  induction hs generalizing e with
  | nil => trivial
  | cons h hs ih =>
    simp only [connectionOk, Bool.and_eq_true] at hok
    obtain ⟨⟨hfirst, hfields⟩, hrest⟩ := hok
    obtain ⟨out, table', henc, hafter, hdec⟩ :=
      decode_encode formatExpires (hresp h List.mem_cons_self) hfirst hfields
    rw [hafter] at hrest
    exact ⟨out, table', table', henc, hdec, rfl,
      ih table' (fun g hg => hresp g (List.mem_cons_of_mem _ hg)) hrest⟩

def headerOf (fields : List (String × String)) : Header :=
  fields.foldl (fun h field => h.set (bytes field.1) (bytes field.2)) {}

/-- Two responses, the second of which finds its fields in the tables. -/
theorem connection_roundTrips_two :
    RoundTrips (fun _ => []) {} {}
      [headerOf [(":status", "200"), ("content-type", "text/html"), ("x-powered-by", "sese")],
        headerOf [(":status", "404"), ("content-type", "text/html")]] :=
  connection_roundTrips _ _ _ _ rfl (by decide +kernel) (by decide +kernel)

/-- `RoundTrips`, computed for one choice of the indeterminate octets. -/
def checkRoundTrips (formatExpires : ℕ → Bytes) (indet : ℕ → UInt8) :
    DynamicTable → DynamicTable → List Header → Bool
  | _, _, [] => true
  | e, d, h :: hs =>
    match encode formatExpires e {} h with
    | .error _ => false
    | .ok (out, e') =>
      match decode indet out out.length d {} true with
      | .error _ => false
      | .ok (code, s) =>
        code = 0 && s.header = h && s.table = e' &&
          checkRoundTrips formatExpires indet e' s.table hs

theorem checkRoundTrips_of_roundTrips {formatExpires : ℕ → Bytes} {e d : DynamicTable}
    {hs : List Header} (h : RoundTrips formatExpires e d hs) (indet : ℕ → UInt8) :
    checkRoundTrips formatExpires indet e d hs := by
  induction hs generalizing e d with
  | nil => rfl
  | cons x hs ih =>
    obtain ⟨out, e', d', henc, hdec, heq, hrest⟩ := h
    subst heq
    obtain ⟨s, hs, hheader, htable⟩ := hdec indet
    simp [checkRoundTrips, henc, hs, hheader, htable, ih hrest]

/-- The table that 66 fields with names of one octet and empty values leave behind
in a fresh one. The oldest of them has the index 127. -/
def crowdedTable : DynamicTable where
  size := 66 * 5
  queue := (List.range 66).map fun i => ([UInt8.ofNat (97 + i)], [])

theorem crowdedTable_roundTrips_fails :
    IsResponse (headerOf [(":status", "200"), ("a", "")]) ∧
      ¬ RoundTrips (fun _ => []) crowdedTable crowdedTable
        [headerOf [(":status", "200"), ("a", "")]] := by
  refine ⟨by decide +kernel, fun h => ?_⟩
  have hcheck := checkRoundTrips_of_roundTrips h fun _ => 0
  have hfalse : checkRoundTrips (fun _ => []) (fun _ => 0) crowdedTable crowdedTable
      [headerOf [(":status", "200"), ("a", "")]] = false := by
    decide +kernel
  simp [hfalse] at hcheck

end HPackUtil
end Sese.Net.Http
