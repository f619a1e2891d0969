import Sese.Net.Http.Huffman

/-!
# Which strings the Huffman code carries

`huffman_tree_t::decode` reads code words and drops a rest that comes to no symbol, whatever it is
and however long; `huffman_encoder_t::encode` fills up with fewer than eight ones. So the octets that
the tree cannot reach are lost on the way out, and on the way in there are several spellings of one
string.
-/
namespace Sese.Net.Http

open Foundation

def huffmanEntries : List (List Bool × ℕ) :=
  huffmanTable.zipIdx.map fun w => (wordBits w.1, w.2)

theorem huffmanTree_eq : huffmanTree = CodeTree.ofEntries huffmanEntries := by
  simp [huffmanTree, CodeTree.ofEntries, huffmanEntries, List.foldl_map]

theorem mem_huffmanEntries {w : List Bool} {n : ℕ} :
    (w, n) ∈ huffmanEntries ↔ n < 257 ∧ w = huffmanWord n := by
  have hlength : huffmanTable.length = 257 := by decide +kernel
  simp only [huffmanEntries, List.mem_map, Prod.mk.injEq, Prod.exists, List.mem_zipIdx_iff_getElem?]
  constructor
  · rintro ⟨width, word, m, hget, rfl, rfl⟩
    have hlt := (List.getElem?_eq_some_iff.mp hget).1
    exact ⟨by omega, by simp [huffmanWord, hget]⟩
  · rintro ⟨hlt, rfl⟩
    have hget := List.getElem?_eq_getElem (l := huffmanTable) (i := n) (by omega)
    exact ⟨_, _, n, hget, by simp [huffmanWord, hget], rfl⟩

theorem huffmanWord_ne_nil : ∀ n < 257, huffmanWord n ≠ [] := by decide +kernel

theorem legible_word {n : ℕ} {w : List Bool} (h : huffmanTree.Legible n w) :
    n < 257 ∧ w = huffmanWord n := by
  rw [huffmanTree_eq] at h
  exact mem_huffmanEntries.mp (CodeTree.mem_of_legible h)

theorem underway_huffmanTree_iff {rest : List Bool} :
    huffmanTree.Underway rest ↔
      (∃ n < 257, rest <+: huffmanWord n) ∧ ∀ n < 257, ¬huffmanWord n <+: rest := by
  have hne : ∀ e ∈ huffmanEntries, e.1 ≠ [] := by
    rintro ⟨w, n⟩ he
    obtain ⟨hlt, rfl⟩ := mem_huffmanEntries.mp he
    exact huffmanWord_ne_nil n hlt
  rw [huffmanTree_eq, CodeTree.underway_ofEntries_iff hne]
  constructor
  · rintro ⟨hbegins, hshort⟩
    constructor
    · rcases hbegins with rfl | ⟨⟨w, n⟩, he, hw⟩
      · exact ⟨0, by decide, List.nil_prefix⟩
      · obtain ⟨hlt, rfl⟩ := mem_huffmanEntries.mp he
        exact ⟨n, hlt, hw⟩
    · intro n hlt
      exact hshort _ (mem_huffmanEntries.mpr ⟨hlt, rfl⟩)
  · rintro ⟨⟨n, hlt, hw⟩, hshort⟩
    constructor
    · exact .inr ⟨_, mem_huffmanEntries.mpr ⟨hlt, rfl⟩, hw⟩
    · rintro ⟨w, n⟩ he
      obtain ⟨hlt, rfl⟩ := mem_huffmanEntries.mp he
      exact hshort n hlt

/-- The bits of `b` are the words of the octets of `s` and a rest that comes to no word. The words
that the tree cannot reach do not count. -/
structure Spelled (b s : Bytes) (rest : List Bool) : Prop where
  bits : b.flatMap bitsOfByte = (s.flatMap fun x => huffmanWord x.toNat) ++ rest
  legible : ∀ x ∈ s, x.toNat ∉ ambiguousOctets
  begins : ∃ n < 257, rest <+: huffmanWord n
  short : ∀ n < 257, ¬huffmanWord n <+: rest

theorem exists_octets {codes : List ℕ} (h : ∀ n ∈ codes, n < 256) :
    ∃ s : Bytes, codes = s.map UInt8.toNat := by
  refine ⟨codes.map UInt8.ofNat, ?_⟩
  have hback : ∀ n ∈ codes, (UInt8.ofNat n).toNat = n := by
    intro n hn
    simp [Nat.mod_eq_of_lt (h n hn)]
  rw [List.map_map]
  exact (List.map_id codes).symm.trans (List.map_congr_left fun n hn => (hback n hn).symm)

theorem huffmanDecode_eq_some_iff {b s : Bytes} :
    huffmanDecode b = some s ↔ b.length ≤ 2 ^ 32 - 1 ∧ ∃ rest, Spelled b s rest := by
  have hcode : ∀ n w, huffmanTree.Legible n w → w = huffmanWord n :=
    fun n w h => (legible_word h).2
  unfold huffmanDecode
  split_ifs with hlong
  · simp
    omega
  · simp only [Option.map_eq_some_iff, CodeTree.decodeBits_eq_some_iff hcode,
      underway_huffmanTree_iff, Nat.not_lt.mp hlong, true_and]
    constructor
    · rintro ⟨codes, ⟨rest, hbits, hlegible, hbegins, hshort⟩, hs⟩
      have hoctet : ∀ n ∈ codes, n < 256 ∧ n ∉ ambiguousOctets := by
        intro n hn
        have hword := hlegible n hn
        rw [legible_iff n (legible_word hword).1] at hword
        exact of_decide_eq_true hword
      obtain ⟨s', rfl⟩ := exists_octets fun n hn => (hoctet n hn).1
      rw [flatMap_emitCode] at hs
      subst hs
      refine ⟨rest, by simpa [List.flatMap_map] using hbits, ?_, hbegins, hshort⟩
      intro x hx
      exact (hoctet _ (List.mem_map_of_mem hx)).2
    · rintro ⟨rest, hbits, hlegible, hbegins, hshort⟩
      refine ⟨s.map UInt8.toNat, ⟨rest, by simpa [List.flatMap_map] using hbits, ?_, hbegins, hshort⟩,
        flatMap_emitCode s⟩
      intro n hn
      obtain ⟨x, hx, rfl⟩ := List.mem_map.mp hn
      simp [legible_iff _ (x.toNat_lt.trans (by decide)), hlegible x hx, x.toNat_lt]

theorem flatMap_bitsOfByte_injective {b b' : Bytes}
    (h : b.flatMap bitsOfByte = b'.flatMap bitsOfByte) : b = b' := by
  have hone : ∀ x y : UInt8, bitsOfByte x = bitsOfByte y → x = y := by
    intro x y hxy
    have hbits : ∀ n < 256, byteOfBits (bitsOfByte (UInt8.ofNat n)) = UInt8.ofNat n := by
      decide +kernel
    have hx := hbits x.toNat x.toNat_lt
    have hy := hbits y.toNat y.toNat_lt
    rw [UInt8.ofNat_toNat] at hx hy
    rw [← hx, ← hy, hxy]
  induction b generalizing b' with
  | nil =>
    cases b' with
    | nil => simp
    | cons y b' => simp [bitsOfByte] at h
  | cons x b ih =>
    cases b' with
    | nil => simp [bitsOfByte] at h
    | cons y b' =>
      simp only [List.flatMap_cons] at h
      obtain ⟨hx, hb⟩ := List.append_inj h (by simp [bitsOfByte])
      rw [hone x y hx, ih hb]

def codeBits (s : Bytes) : ℕ := (s.map fun x => (huffmanWord x.toNat).length).sum

theorem huffmanEncode_bits (s : Bytes) : ∃ k < 8, (huffmanEncode s).flatMap bitsOfByte =
    (s.flatMap fun x => huffmanWord x.toNat) ++ List.replicate k true :=
  (HuffmanEncoder.encode_fresh s).2

theorem length_flatMap_bitsOfByte (b : Bytes) : (b.flatMap bitsOfByte).length = 8 * b.length := by
  simp [List.length_flatMap, bitsOfByte, mul_comm]

theorem length_huffmanEncode_le_iff {s : Bytes} {n : ℕ} :
    (huffmanEncode s).length ≤ n ↔ codeBits s ≤ 8 * n := by
  obtain ⟨k, hk, hbits⟩ := huffmanEncode_bits s
  have hlength := congrArg List.length hbits
  rw [length_flatMap_bitsOfByte, List.length_append, List.length_replicate,
    List.length_flatMap] at hlength
  unfold codeBits
  omega

/-- An octet that the tree cannot reach is never read. -/
theorem huffmanDecode_encode_ne {s : Bytes} (h : ∃ x ∈ s, x.toNat ∈ ambiguousOctets) :
    huffmanDecode (huffmanEncode s) ≠ some s := by
  intro hread
  obtain ⟨-, rest, hspelled⟩ := huffmanDecode_eq_some_iff.mp hread
  obtain ⟨x, hx, hambiguous⟩ := h
  exact hspelled.legible x hx hambiguous

/-- `decode` undoes `encode` on the strings without an octet that the tree cannot reach, as long as
the code words have no more bits than fit in `2 ^ 32 - 1` octets. -/
theorem huffman_roundTrips_iff (s : Bytes) :
    huffmanDecode (huffmanEncode s) = some s ↔
      (∀ x ∈ s, x.toNat ∉ ambiguousOctets) ∧ codeBits s ≤ 8 * (2 ^ 32 - 1) := by
  rw [← length_huffmanEncode_le_iff]
  constructor
  · intro hread
    obtain ⟨hlength, rest, hspelled⟩ := huffmanDecode_eq_some_iff.mp hread
    exact ⟨hspelled.legible, hlength⟩
  · rintro ⟨hlegible, hlength⟩
    exact huffmanDecode_encode hlegible hlength

/-- A tab comes back as octet 142. -/
theorem huffman_tab : huffmanDecode (huffmanEncode [9]) ≠ some [9] := by
  apply huffmanDecode_encode_ne
  decide

/-- Behind octets that the tree reads comes the end of string. -/
def HoldsEos (b : Bytes) : Prop :=
  ∃ (s : Bytes) (rest : List Bool), (∀ x ∈ s, x.toNat ∉ ambiguousOctets) ∧
    b.flatMap bitsOfByte = (s.flatMap fun x => huffmanWord x.toNat) ++ (huffmanWord 256 ++ rest)

/-- What `decode` accepts has no end of string in it and is what `encode` makes of the result. -/
def Strict (b : Bytes) : Prop :=
  ∀ s, huffmanDecode b = some s → b = huffmanEncode s ∧ ¬HoldsEos b

/-- The padding of `encode`. -/
def ShortOnes (rest : List Bool) : Prop := rest.length < 8 ∧ ∀ x ∈ rest, x = true

/-- The octet whose word begins the end of string is followed by what completes it. -/
def CompletesEos (s : Bytes) (rest : List Bool) : Prop :=
  ∃ before after, s = before ++ 249 :: after ∧
    [true, true, true] <+: (after.flatMap fun x => huffmanWord x.toNat) ++ rest

theorem huffmanWord_eos : huffmanWord 256 = huffmanWord 249 ++ [true, true, true] := by
  decide +kernel

theorem Spelled.of_words {b s : Bytes} {rest : List Bool} (h : Spelled b s rest) {u : Bytes}
    {bits : List Bool} (hu : ∀ x ∈ u, x.toNat ∉ ambiguousOctets)
    (hbits : b.flatMap bitsOfByte = (u.flatMap fun x => huffmanWord x.toNat) ++ bits) :
    ∃ after, s = u ++ after ∧ (after.flatMap fun x => huffmanWord x.toNat) ++ rest = bits := by
  have hlegible : ∀ {v : Bytes}, (∀ x ∈ v, x.toNat ∉ ambiguousOctets) →
      ∀ n ∈ v.map UInt8.toNat, huffmanTree.Legible n (huffmanWord n) := by
    intro v hv n hn
    obtain ⟨x, hx, rfl⟩ := List.mem_map.mp hn
    exact legible_of_not_ambiguous _ x.toNat_lt (hv x hx)
  have hread : ∀ {v : Bytes} (more : List Bool), (∀ x ∈ v, x.toNat ∉ ambiguousOctets) →
      CodeTree.decodeBits huffmanTree huffmanTree
          ((v.flatMap fun x => huffmanWord x.toNat) ++ more) =
        (CodeTree.decodeBits huffmanTree huffmanTree more).map (v.map UInt8.toNat ++ ·) := by
    intro v more hv
    have hdecode := CodeTree.decodeBits_flatMap huffmanTree huffmanWord _ (hlegible hv) more
    rwa [List.flatMap_map] at hdecode
  have hrest : CodeTree.decodeBits huffmanTree huffmanTree rest = some [] :=
    CodeTree.decodeBits_underway _ (underway_huffmanTree_iff.mpr ⟨h.begins, h.short⟩)
  have hs := hread rest h.legible
  rw [← h.bits, hbits, hread bits hu, hrest] at hs
  simp only [Option.map_some, List.append_nil, Option.map_eq_some_iff] at hs
  obtain ⟨codes, -, hcodes⟩ := hs
  obtain ⟨u', after, rfl, hu', -⟩ := List.map_eq_append_iff.mp hcodes.symm
  have hprefix : u' = u := List.map_injective_iff.mpr (fun _ _ => UInt8.toNat_inj.mp) hu'
  subst hprefix
  refine ⟨after, by simp, ?_⟩
  have hsame := h.bits.symm.trans hbits
  rw [List.flatMap_append, List.append_assoc] at hsame
  exact List.append_cancel_left hsame

/-- The end of string passes for octet 249. -/
theorem Spelled.holdsEos_iff {b s : Bytes} {rest : List Bool} (h : Spelled b s rest) :
    HoldsEos b ↔ CompletesEos s rest := by
  have hword : ∀ before : Bytes, ((before ++ [249]).flatMap fun x : UInt8 => huffmanWord x.toNat) =
      (before.flatMap fun x => huffmanWord x.toNat) ++ huffmanWord 249 := by
    intro before
    simp
  constructor
  · rintro ⟨u, more, hu, hbits⟩
    have hlegible : ∀ x ∈ u ++ [249], x.toNat ∉ ambiguousOctets := by
      intro x hx
      rcases List.mem_append.mp hx with hx | hx
      · exact hu x hx
      · rw [List.mem_singleton.mp hx]
        decide
    rw [huffmanWord_eos, List.append_assoc, ← List.append_assoc, ← hword] at hbits
    obtain ⟨after, rfl, hafter⟩ := h.of_words hlegible hbits
    exact ⟨u, after, by simp, more, hafter.symm⟩
  · rintro ⟨before, after, rfl, more, hmore⟩
    refine ⟨before, more, fun x hx => h.legible x (List.mem_append_left _ hx), ?_⟩
    rw [h.bits, List.flatMap_append, List.flatMap_cons, huffmanWord_eos, List.append_assoc,
      List.append_assoc, List.append_assoc, hmore]
    rfl

/-- What is read is what `encode` writes, if and only if the rest is its padding. -/
theorem Spelled.eq_encode_iff {b s : Bytes} {rest : List Bool} (h : Spelled b s rest) :
    b = huffmanEncode s ↔ ShortOnes rest := by
  obtain ⟨k, hk, hbits⟩ := huffmanEncode_bits s
  constructor
  · intro hb
    rw [← hb, h.bits] at hbits
    obtain rfl := List.append_cancel_left hbits
    exact ⟨by simpa using hk, fun x hx => (List.mem_replicate.mp hx).2⟩
  · rintro ⟨hshort, hones⟩
    have hrest : rest = List.replicate rest.length true := List.eq_replicate_of_mem hones
    have hsame : rest.length = k := by
      -- both fill up a whole number of octets
      have h₁ := congrArg List.length h.bits
      have h₂ := congrArg List.length hbits
      rw [length_flatMap_bitsOfByte, List.length_append] at h₁ h₂
      rw [List.length_replicate] at h₂
      omega
    apply flatMap_bitsOfByte_injective
    rw [h.bits, hbits, hrest, hsame]

/-- `decode` is strict where every rest that comes to no code word is fewer than eight ones, and no
octet 249 is followed by three ones. -/
theorem huffmanDecode_strict_iff (b : Bytes) :
    Strict b ↔ (b.length ≤ 2 ^ 32 - 1 → ∀ s rest, Spelled b s rest →
      ShortOnes rest ∧ ¬CompletesEos s rest) := by
  constructor
  · intro h hlength s rest hspelled
    obtain ⟨hencode, heos⟩ := h s (huffmanDecode_eq_some_iff.mpr ⟨hlength, rest, hspelled⟩)
    exact ⟨hspelled.eq_encode_iff.mp hencode, fun hcompletes =>
      heos (hspelled.holdsEos_iff.mpr hcompletes)⟩
  · intro h s hread
    obtain ⟨hlength, rest, hspelled⟩ := huffmanDecode_eq_some_iff.mp hread
    obtain ⟨hshort, heos⟩ := h hlength s rest hspelled
    exact ⟨hspelled.eq_encode_iff.mpr hshort, fun hholds => heos (hspelled.holdsEos_iff.mp hholds)⟩

/-- Eight ones are a padding that is too long. -/
theorem huffmanDecode_longPadding : ¬Strict [0xFF] := by
  have hread : huffmanDecode [0xFF] = some [] := by decide +kernel
  have hwritten : huffmanEncode [] ≠ [0xFF] := by decide +kernel
  intro h
  exact hwritten (h [] hread).1.symm

end Sese.Net.Http
