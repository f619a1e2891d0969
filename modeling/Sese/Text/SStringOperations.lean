import Sese.Text.SStringChars
import Sese.Text.SStringView

/-!
# String operations and code points

On a valid string the operations act on its characters: what `len`, `at`, `substring` and
`reverse` make of it is told by the list of the characters. `reverse` and `substring` count octets
with an `int`, so that the strings with fewer than 2³¹ octets are those for which this holds.
-/
namespace Sese.Text

open Foundation String

variable {pre data : Bytes} {c : Char} {cs : List Char}

theorem encode_nil : encode [] = [] := rfl

theorem encode_append (cs cs' : List Char) : encode (cs ++ cs') = encode cs ++ encode cs' :=
  List.flatMap_append

theorem length_encode_cons (c : Char) (cs : List Char) :
    (encode (c :: cs)).length = (utf8EncodeChar c).length + (encode cs).length := by
  rw [encode_cons, List.length_append]

theorem length_utf8EncodeChar_pos (c : Char) : 0 < (utf8EncodeChar c).length := by
  have h := (reads_encodedSize c).length_eq
  have := encodedSize_pos c.toNat
  omega

theorem length_le_encode (cs : List Char) : cs.length ≤ (encode cs).length := by
  induction cs with
  | nil => exact Nat.zero_le _
  | cons c cs ih =>
    have := length_utf8EncodeChar_pos c
    rw [length_encode_cons, List.length_cons]
    omega

theorem readAt_char (hc : Char.ofNat 0 ≠ c) (pre : Bytes) (cs : List Char) :
    ∃ ch, readAt (pre ++ (encode (c :: cs) ++ [0])) pre.length = .ok ch ∧ ch ≠ 0 ∧
      getSizeFromUTF8Char ch = (utf8EncodeChar c).length := by
  obtain ⟨ch, tail, heq, hch, -⟩ := utf8EncodeChar_eq_cons hc.symm
  have hread := reads_encodedSize c
  refine ⟨ch, ?_, hch, ?_⟩
  · apply readAt_natCast
    rw [encode_cons, heq, List.getElem?_append_right le_rfl, Nat.sub_self]
    rfl
  · rw [hread.first (encode cs) ch (tail ++ encode cs) (by rw [heq]; rfl), hread.length_eq]

theorem readAt_end (pre : Bytes) : readAt (pre ++ (encode [] ++ [0])) pre.length = .ok 0 := by
  apply readAt_natCast
  simp [encode_nil]

theorem place_next (pre : Bytes) (c : Char) (cs : List Char) :
    pre ++ (encode (c :: cs) ++ [0]) = pre ++ utf8EncodeChar c ++ (encode cs ++ [0]) := by
  simp only [encode_cons, List.append_assoc]

/-- The rest of a view, behind the octets `pre` of a string. -/
def viewAt (pre : Bytes) (cs : List Char) : SStringView :=
  ⟨pre ++ (encode cs ++ [0]), (pre ++ encode cs).length⟩

theorem viewAt_next (pre : Bytes) (c : Char) (cs : List Char) :
    viewAt pre (c :: cs) = viewAt (pre ++ utf8EncodeChar c) cs := by
  simp only [viewAt, encode_cons, List.append_assoc]

theorem ofCString_eq_viewAt (h : Char.ofNat 0 ∉ cs) :
    SStringView.ofCString (encode cs) = viewAt [] cs := ofCString_encode h

theorem char_fits (pre : Bytes) (c : Char) (cs : List Char) :
    pre.length < (viewAt pre (c :: cs)).size ∧
      pre.length + (utf8EncodeChar c).length ≤ (viewAt pre (c :: cs)).size := by
  have hpos := length_utf8EncodeChar_pos c
  simp only [viewAt, List.length_append, length_encode_cons]
  omega

namespace SStringView

theorem lenLoop_eq (h : Char.ofNat 0 ∉ cs) (pre : Bytes) {fuel : ℕ} (len : ℕ)
    (hfuel : (encode cs).length < fuel) :
    lenLoop (viewAt pre cs) fuel pre.length len = .ok (len + cs.length) := by
  induction cs generalizing pre fuel len with
  | nil =>
    obtain ⟨fuel, rfl⟩ : ∃ k, fuel = k + 1 := ⟨fuel - 1, by omega⟩
    simp [lenLoop, viewAt, encode_nil]
  | cons c cs ih =>
    rw [List.mem_cons, not_or] at h
    have hlen := length_encode_cons c cs
    have hpos := length_utf8EncodeChar_pos c
    obtain ⟨fuel, rfl⟩ : ∃ k, fuel = k + 1 := ⟨fuel - 1, by omega⟩
    obtain ⟨ch, hread, hch, hsize⟩ := readAt_char h.1 pre cs
    obtain ⟨hlt, hle⟩ := char_fits pre c cs
    have hvalid : ¬ ((utf8EncodeChar c).length : ℤ) = -1 := by omega
    have hfits : ¬ (pre.length : ℤ) + (utf8EncodeChar c).length > (viewAt pre (c :: cs)).size := by
      omega
    have hrest := ih h.2 (pre ++ utf8EncodeChar c) (len + 1) (by omega : (encode cs).length < fuel)
    rw [List.length_append, ← viewAt_next] at hrest
    rw [lenLoop, if_pos hlt]
    change readAt (pre ++ (encode (c :: cs) ++ [0])) pre.length >>= _ = _
    simp only [hread, ok_bind, if_neg hch, hsize, if_neg hvalid, if_neg hfits, Int.toNat_natCast,
      hrest, List.length_cons]
    congr 1
    omega

theorem len_encode (h : Char.ofNat 0 ∉ cs) : (ofCString (encode cs)).len = .ok cs.length := by
  rw [ofCString_eq_viewAt h]
  have hloop := lenLoop_eq h [] 0 (Nat.lt_succ_self _)
  rw [Nat.zero_add] at hloop
  exact hloop

theorem atLoop_eq (h : Char.ofNat 0 ∉ cs) (pre : Bytes) {fuel : ℕ} (index n : ℕ)
    (hfuel : (encode cs).length < fuel) :
    atLoop (viewAt pre cs) index fuel pre.length n =
      .ok (if index ≤ n then 0 else (cs[index - (n + 1)]?.map Char.toNat).getD 0) := by
  induction cs generalizing pre fuel n with
  | nil =>
    obtain ⟨fuel, rfl⟩ : ∃ k, fuel = k + 1 := ⟨fuel - 1, by omega⟩
    simp [atLoop, viewAt, encode_nil]
  | cons c cs ih =>
    rw [List.mem_cons, not_or] at h
    have hlen := length_encode_cons c cs
    have hpos := length_utf8EncodeChar_pos c
    obtain ⟨fuel, rfl⟩ : ∃ k, fuel = k + 1 := ⟨fuel - 1, by omega⟩
    obtain ⟨ch, hread, hch, hsize⟩ := readAt_char h.1 pre cs
    obtain ⟨hlt, hle⟩ := char_fits pre c cs
    have hvalid : ¬ ((utf8EncodeChar c).length : ℤ) = -1 := by omega
    have hfits : ¬ (pre.length : ℤ) + (utf8EncodeChar c).length > (viewAt pre (c :: cs)).size := by
      omega
    rw [atLoop, if_pos hlt]
    change readAt (pre ++ (encode (c :: cs) ++ [0])) pre.length >>= _ = _
    simp only [hread, ok_bind, if_neg hch, hsize, if_neg hvalid, if_neg hfits, Int.toNat_natCast]
    by_cases hindex : index = n + 1
    · have hdrop : (viewAt pre (c :: cs)).data.drop pre.length =
          utf8EncodeChar c ++ (encode cs ++ [0]) := by
        rw [viewAt, place_next, List.append_assoc, List.drop_left]
      rw [if_pos hindex, hdrop, (reads_encodedSize c).length_eq, (reads_encodedSize c).code,
        if_neg (by omega), hindex, Nat.sub_self]
      rfl
    · have hrest := ih h.2 (pre ++ utf8EncodeChar c) (n + 1) (by omega : (encode cs).length < fuel)
      rw [List.length_append, ← viewAt_next] at hrest
      rw [if_neg hindex, hrest]
      by_cases hle : index ≤ n
      · rw [if_pos hle, if_pos (by omega)]
      · rw [if_neg hle, if_neg (by omega), show index - (n + 1) = index - (n + 1 + 1) + 1 by omega,
          List.getElem?_cons_succ]

theorem charAt_encode (h : Char.ofNat 0 ∉ cs) {i : ℕ} (hi : i < sizeBound)
    (hlen : cs.length < sizeBound - 1) :
    (ofCString (encode cs)).charAt i = .ok ((cs[i]?.map Char.toNat).getD 0) := by
  have hloop := atLoop_eq h [] ((i + 1) % sizeBound) 0 (Nat.lt_succ_self _)
  rw [ofCString_eq_viewAt h]
  refine hloop.trans ?_
  by_cases hlast : i + 1 = sizeBound
  · rw [hlast, Nat.mod_self, if_pos le_rfl, List.getElem?_eq_none (by omega)]
    rfl
  · rw [Nat.mod_eq_of_lt (by omega), if_neg (by omega), Nat.zero_add, Nat.add_sub_cancel]

theorem pointerLoop_eq (h : Char.ofNat 0 ∉ cs) (pre : Bytes) (togo : ℕ) {i : ℤ} (hlow : -1 ≤ i)
    (hi : i + cs.length < 2 ^ 31) :
    pointerLoop (pre ++ (encode cs ++ [0])) togo pre.length i =
      .ok (if togo < cs.length then some ((pre ++ encode (cs.take togo)).length : ℤ) else none) := by
  induction cs generalizing pre togo i with
  | nil =>
    rw [pointerLoop, readAt_end]
    simp
  | cons c cs ih =>
    rw [List.mem_cons, not_or] at h
    rw [List.length_cons] at hi
    obtain ⟨ch, hread, hch, hsize⟩ := readAt_char h.1 pre cs
    have hcheck : checkInt (i + 1) = .ok (i + 1) := checkInt_of_lt (by omega) (by omega)
    rw [pointerLoop]
    simp only [hread, ok_bind, if_neg hch, hcheck, hsize]
    cases togo with
    | zero => simp [encode_nil]
    | succ togo =>
      have hrest := ih h.2 (pre ++ utf8EncodeChar c) togo (by omega : -1 ≤ i + 1) (by omega)
      rw [List.length_append, Nat.cast_add, ← place_next] at hrest
      refine hrest.trans ?_
      simp only [List.length_cons, Nat.succ_lt_succ_iff, List.take_succ_cons, encode_cons,
        List.append_assoc]

theorem pointerAt_encode (h : Char.ofNat 0 ∉ cs) (hlt : (encode cs).length < 2 ^ 31) (begin : ℕ) :
    pointerAt (encode cs ++ [0]) begin =
      .ok (if begin < cs.length then some ((encode (cs.take begin)).length : ℤ) else none) := by
  have hle := length_le_encode cs
  exact pointerLoop_eq h [] begin (le_refl (-1)) (by omega)

theorem sizeLoop_eq (h : Char.ofNat 0 ∉ cs) (pre : Bytes) (togo : ℕ) (count newSize : ℤ)
    (hcount : 0 ≤ count) (hnew : 0 ≤ newSize) (hcount' : count + cs.length < 2 ^ 31)
    (hnew' : newSize + (encode cs).length < 2 ^ 31) :
    sizeLoop (pre ++ (encode cs ++ [0])) togo pre.length count newSize =
      .ok (newSize + (encode (cs.take togo)).length) := by
  induction cs generalizing pre togo count newSize with
  | nil =>
    rw [sizeLoop, readAt_end]
    simp [encode_nil]
  | cons c cs ih =>
    rw [List.mem_cons, not_or] at h
    rw [List.length_cons] at hcount'
    rw [length_encode_cons] at hnew'
    obtain ⟨ch, hread, hch, hsize⟩ := readAt_char h.1 pre cs
    rw [sizeLoop]
    simp only [hread, ok_bind, if_neg hch, hsize]
    cases togo with
    | zero => simp [encode_nil]
    | succ togo =>
      have hcheck : checkInt (newSize + (utf8EncodeChar c).length) =
          .ok (newSize + (utf8EncodeChar c).length) := checkInt_of_lt (by omega) (by omega)
      have hcheck' : checkInt (count + 1) = .ok (count + 1) := checkInt_of_lt (by omega) (by omega)
      have hrest := ih h.2 (pre ++ utf8EncodeChar c) togo (count + 1)
        (newSize + (utf8EncodeChar c).length) (by omega) (by omega) (by omega) (by omega)
      rw [List.length_append, Nat.cast_add, ← place_next] at hrest
      simp only [hcheck, hcheck', ok_bind, hrest, List.take_succ_cons, length_encode_cons,
        Nat.cast_add, add_assoc]

/-- The string has these characters, and `_size` is the number of its octets. -/
structure IsString (str : SStringView) (cs : List Char) : Prop where
  text : str.text = encode cs
  size : str.size = (encode cs).length

theorem isString_null : IsString null [] := ⟨rfl, rfl⟩

theorem lt_capacity {size : ℕ} (h : size < 2 ^ 31) : size < (size / 16 + 1) * 16 % sizeBound := by
  unfold sizeBound
  omega

theorem store_terminated {block src : Bytes} (h : src.length < block.length) :
    ∃ rest, store block 0 src = .ok (src ++ block.drop src.length) ∧
      store (src ++ block.drop src.length) src.length [0] = .ok (src ++ rest) := by
  refine ⟨[0] ++ (block.drop src.length).drop 1, ?_, ?_⟩
  · exact store_left (by rfl : 0 = ([] : Bytes).length) h.le
  · exact store_left rfl (by rw [List.length_drop, List.length_singleton]; omega)

theorem copyOut_eq (junk : ℕ → UInt8) {pre : Bytes} (post : Bytes) {cs : List Char}
    (hdata : data = pre ++ (encode cs ++ post)) (hlt : (encode cs).length < 2 ^ 31) :
    ∃ str, copyOut junk data pre.length (encode cs).length = .ok str ∧ IsString str cs := by
  have hroom := lt_capacity hlt
  have hblock := length_malloc junk (((encode cs).length / 16 + 1) * 16 % sizeBound)
  have hload : load data pre.length (encode cs).length = .ok (encode cs) := by
    rw [hdata]
    exact load_append rfl rfl
  obtain ⟨rest, hstore, hnul⟩ := store_terminated (by rwa [← hblock] at hroom)
  refine ⟨⟨encode cs ++ rest, (encode cs).length⟩, ?_, List.take_left, rfl⟩
  simp only [copyOut, Int.natCast_nonneg, if_true, Int.toNat_natCast, hload, ok_bind, hstore, hnul]
  rfl

theorem substringFrom_encode (junk : ℕ → UInt8) (h : Char.ofNat 0 ∉ cs)
    (hlt : (encode cs).length < 2 ^ 31) (begin : ℕ) :
    ∃ str, (ofCString (encode cs)).substringFrom junk begin = .ok str ∧
      IsString str (cs.drop begin) := by
  have hparts : encode cs = encode (cs.take begin) ++ encode (cs.drop begin) := by
    rw [← encode_append, List.take_append_drop]
  have hlength := congrArg List.length hparts
  rw [List.length_append] at hlength
  rw [ofCString_eq_viewAt h]
  simp only [substringFrom, viewAt, List.nil_append, pointerAt_encode h hlt, ok_bind]
  by_cases hbegin : begin < cs.length
  · simp only [if_pos hbegin]
    have hsize : toSize (((encode cs).length : ℤ) - (encode (cs.take begin)).length) =
        (encode (cs.drop begin)).length := by
      unfold toSize sizeBound
      omega
    rw [hsize]
    exact copyOut_eq junk [0] (by rw [hparts, List.append_assoc]) (by omega)
  · simp only [if_neg hbegin]
    rw [List.drop_eq_nil_of_le (not_lt.mp hbegin)]
    exact ⟨null, rfl, isString_null⟩

theorem substring_encode (junk : ℕ → UInt8) (h : Char.ofNat 0 ∉ cs)
    (hlt : (encode cs).length < 2 ^ 31) (begin len : ℕ) :
    ∃ str, (ofCString (encode cs)).substring junk begin len = .ok str ∧
      IsString str ((cs.drop begin).take len) := by
  have hparts : encode cs = encode (cs.take begin) ++ encode (cs.drop begin) := by
    rw [← encode_append, List.take_append_drop]
  have hparts' : encode (cs.drop begin) =
      encode ((cs.drop begin).take len) ++ encode ((cs.drop begin).drop len) := by
    rw [← encode_append, List.take_append_drop]
  have hlength := congrArg List.length hparts
  have hlength' := congrArg List.length hparts'
  rw [List.length_append] at hlength hlength'
  rw [ofCString_eq_viewAt h]
  simp only [substring, viewAt, List.nil_append, pointerAt_encode h hlt, ok_bind]
  by_cases hbegin : begin < cs.length
  · have hdrop : Char.ofNat 0 ∉ cs.drop begin := fun hmem => h (List.mem_of_mem_drop hmem)
    have hle := length_le_encode (cs.drop begin)
    have hloop := sizeLoop_eq hdrop (encode (cs.take begin)) len 0 0 (le_refl 0) (le_refl 0)
      (by omega) (by omega)
    rw [← List.append_assoc, ← hparts, Int.zero_add] at hloop
    simp only [if_pos hbegin, hloop, ok_bind]
    rw [toSize_natCast (by unfold sizeBound; omega)]
    exact copyOut_eq junk (encode ((cs.drop begin).drop len) ++ [0])
      (by rw [hparts, hparts']; simp only [List.append_assoc]) (by omega)
  · simp only [if_neg hbegin]
    rw [List.drop_eq_nil_of_le (not_lt.mp hbegin), List.take_nil]
    exact ⟨null, rfl, isString_null⟩

theorem reverseLoop_eq (h : Char.ofNat 0 ∉ cs) (pre front tail : Bytes) {fuel : ℕ}
    (hfuel : (encode cs).length < fuel) (hfront : front.length = (encode cs).length)
    (hlt : (pre ++ encode cs).length < 2 ^ 31) :
    reverseLoop (viewAt pre cs) fuel pre.length (encode cs).length (front ++ tail) =
      .ok (encode cs.reverse ++ tail) := by
  induction cs generalizing pre fuel front tail with
  | nil =>
    obtain ⟨fuel, rfl⟩ : ∃ k, fuel = k + 1 := ⟨fuel - 1, by omega⟩
    obtain rfl := List.length_eq_zero_iff.mp hfront
    have hbound : pre.length < sizeBound := by
      simp only [encode_nil, List.append_nil] at hlt
      unfold sizeBound
      omega
    have hend : ¬ toSize pre.length < (viewAt pre []).size := by
      rw [toSize_natCast hbound]
      simp [viewAt, encode_nil]
    rw [reverseLoop, if_neg hend]
    rfl
  | cons c cs ih =>
    rw [List.mem_cons, not_or] at h
    have hlen := length_encode_cons c cs
    have hpos := length_utf8EncodeChar_pos c
    rw [List.length_append] at hlt
    obtain ⟨fuel, rfl⟩ : ∃ k, fuel = k + 1 := ⟨fuel - 1, by omega⟩
    obtain ⟨ch, hread, hch, hsize⟩ := readAt_char h.1 pre cs
    obtain ⟨hin, hle⟩ := char_fits pre c cs
    have hmore : toSize pre.length < (viewAt pre (c :: cs)).size := by
      rwa [toSize_natCast (by unfold sizeBound; omega)]
    have hload : load (pre ++ (encode (c :: cs) ++ [0])) pre.length (utf8EncodeChar c).length =
        .ok (utf8EncodeChar c) := by
      rw [encode_cons, List.append_assoc]
      exact load_append rfl rfl
    have hindex : ((encode (c :: cs)).length : ℤ) - (utf8EncodeChar c).length = (encode cs).length := by
      omega
    obtain ⟨start, stop, rfl, hstart, hstop⟩ : ∃ start stop, front = start ++ stop ∧
        start.length = (encode cs).length ∧ stop.length = (utf8EncodeChar c).length :=
      ⟨front.take (encode cs).length, front.drop (encode cs).length,
        (List.take_append_drop _ _).symm, by rw [List.length_take]; omega,
        by rw [List.length_drop]; omega⟩
    have hstore : store (start ++ stop ++ tail) (encode cs).length (utf8EncodeChar c) =
        .ok (start ++ (utf8EncodeChar c ++ tail)) := by
      rw [List.append_assoc]
      exact store_append hstart.symm hstop.symm
    have hcheck : checkInt ((pre.length : ℤ) + (utf8EncodeChar c).length) =
        .ok ((pre ++ utf8EncodeChar c).length : ℤ) := by
      rw [List.length_append, Nat.cast_add]
      exact checkInt_of_lt (by omega) (by omega)
    have hrest := ih h.2 (pre ++ utf8EncodeChar c) start (utf8EncodeChar c ++ tail)
      (by omega : (encode cs).length < fuel) hstart (by simp only [List.length_append]; omega)
    rw [← viewAt_next] at hrest
    rw [reverseLoop, if_pos hmore]
    change readAt (pre ++ (encode (c :: cs) ++ [0])) pre.length >>= _ = _
    simp only [hread, ok_bind, hsize, hindex, Int.natCast_nonneg, if_true, Int.toNat_natCast,
      hcheck]
    change load (pre ++ (encode (c :: cs) ++ [0])) pre.length (utf8EncodeChar c).length >>= _ = _
    simp only [hload, ok_bind, hstore, hrest]
    rw [List.reverse_cons, encode_append, List.append_assoc]
    simp [encode]

theorem reverseLoop_lt (h : Char.ofNat 0 ∉ cs) (pre : Bytes) {fuel : ℕ} {index : ℤ}
    {block block' : Bytes} (hpre : pre.length < 2 ^ 31)
    (hloop : reverseLoop (viewAt pre cs) fuel pre.length index block = .ok block') :
    (pre ++ encode cs).length < 2 ^ 31 := by
  induction cs generalizing pre fuel index block with
  | nil => simpa [encode_nil] using hpre
  | cons c cs ih =>
    rw [List.mem_cons, not_or] at h
    obtain ⟨ch, hread, hch, hsize⟩ := readAt_char h.1 pre cs
    obtain ⟨hin, hle⟩ := char_fits pre c cs
    have hmore : toSize pre.length < (viewAt pre (c :: cs)).size := by
      rwa [toSize_natCast (by unfold sizeBound; omega)]
    cases fuel with
    | zero => cases hloop
    | succ fuel =>
      rw [reverseLoop, if_pos hmore] at hloop
      change readAt (pre ++ (encode (c :: cs) ++ [0])) pre.length >>= _ = _ at hloop
      simp only [hread, ok_bind, hsize] at hloop
      obtain ⟨src, -, hloop⟩ := bind_eq_ok.mp hloop
      split_ifs at hloop with hindex
      all_goals try cases hloop
      obtain ⟨written, -, hloop⟩ := bind_eq_ok.mp hloop
      obtain ⟨i, hi, hloop⟩ := bind_eq_ok.mp hloop
      obtain ⟨rfl, -, hlt⟩ := checkInt_ok hi
      have hrest := @ih h.2 (pre ++ utf8EncodeChar c) fuel (index - (utf8EncodeChar c).length) written
        (by rw [List.length_append]; omega)
        (by rw [List.length_append, Nat.cast_add, ← viewAt_next]; exact hloop)
      simpa only [encode_cons, List.append_assoc] using hrest

theorem reverse_encode (junk : ℕ → UInt8) (h : Char.ofNat 0 ∉ cs)
    (hlt : (encode cs).length < 2 ^ 31) :
    ∃ str, (ofCString (encode cs)).reverse junk = .ok str ∧ IsString str cs.reverse := by
  have hroom := lt_capacity hlt
  have hblock := length_malloc junk (((encode cs).length / 16 + 1) * 16 % sizeBound)
  generalize hmalloc : malloc junk (((encode cs).length / 16 + 1) * 16 % sizeBound) = block at hblock
  have hnul : store block (encode cs).length [0] =
      .ok (block.take (encode cs).length ++ ([0] ++ (block.drop (encode cs).length).drop 1)) := by
    conv_lhs => rw [← List.take_append_drop (encode cs).length block]
    exact store_left (by rw [List.length_take]; omega)
      (by rw [List.length_drop, List.length_singleton]; omega)
  have hloop := reverseLoop_eq h [] (block.take (encode cs).length)
    ([0] ++ (block.drop (encode cs).length).drop 1) (Nat.lt_succ_self _)
    (by rw [List.length_take]; omega) (by simpa using hlt)
  have hlength : (encode cs).length = (encode cs.reverse).length := by
    simp only [encode, List.length_flatMap, List.map_reverse, List.sum_reverse]
  refine ⟨⟨encode cs.reverse ++ ([0] ++ (block.drop (encode cs).length).drop 1),
    (encode cs).length⟩, ?_, ?_, hlength⟩
  · rw [ofCString_eq_viewAt h]
    simp only [reverse, viewAt, List.nil_append, hmalloc, hnul, ok_bind]
    rw [viewAt] at hloop
    simp only [List.nil_append, List.length_nil, Nat.cast_zero] at hloop
    rw [hloop]
    rfl
  · rw [SStringView.text]
    dsimp only
    rw [hlength]
    exact List.take_left

theorem lt_of_reverse {junk : ℕ → UInt8} {str : SStringView} (h : Char.ofNat 0 ∉ cs)
    (hreverse : (ofCString (encode cs)).reverse junk = .ok str) : (encode cs).length < 2 ^ 31 := by
  rw [ofCString_eq_viewAt h] at hreverse
  obtain ⟨block, -, hreverse⟩ := bind_eq_ok.mp hreverse
  obtain ⟨block', hloop, -⟩ := bind_eq_ok.mp hreverse
  have hlt := reverseLoop_lt h [] (by decide) hloop
  simpa using hlt

end SStringView

open SStringView in
/-- The operations of the string with the characters `cs` act on the list of them. -/
structure ActsOnCharacters (junk : ℕ → UInt8) (cs : List Char) : Prop where
  len : (ofCString (encode cs)).len = .ok cs.length
  charAt : ∀ i < sizeBound,
    (ofCString (encode cs)).charAt i = .ok ((cs[i]?.map Char.toNat).getD 0)
  substringFrom : ∀ begin < sizeBound, ∃ str,
    (ofCString (encode cs)).substringFrom junk begin = .ok str ∧ IsString str (cs.drop begin)
  substring : ∀ begin < sizeBound, ∀ len < sizeBound, ∃ str,
    (ofCString (encode cs)).substring junk begin len = .ok str ∧
      IsString str ((cs.drop begin).take len)
  reverse : ∃ str, (ofCString (encode cs)).reverse junk = .ok str ∧ IsString str cs.reverse

/-- The operations act on the characters of a valid string without a NUL if and only if it has
fewer than 2³¹ octets. -/
theorem actsOnCharacters_iff (junk : ℕ → UInt8) {cs : List Char} (h : Char.ofNat 0 ∉ cs) :
    ActsOnCharacters junk cs ↔ (encode cs).length < 2 ^ 31 := by
  constructor
  · rintro ⟨-, -, -, -, str, hreverse, -⟩
    exact SStringView.lt_of_reverse h hreverse
  · intro hlt
    have hle := length_le_encode cs
    have hlen : cs.length < sizeBound - 1 := by
      unfold sizeBound
      omega
    exact
      { len := SStringView.len_encode h
        charAt := fun i hi => SStringView.charAt_encode h hi hlen
        substringFrom := fun begin _ => SStringView.substringFrom_encode junk h hlt begin
        substring := fun begin _ len _ => SStringView.substring_encode junk h hlt begin len
        reverse := SStringView.reverse_encode junk h hlt }

theorem actsOnCharacters_iff_sample :
    ActsOnCharacters (fun _ => 0) ['a', 'λ', Char.ofNat 0x1f600] ↔
      (encode ['a', 'λ', Char.ofNat 0x1f600]).length < 2 ^ 31 :=
  actsOnCharacters_iff _ (by decide)

/-- The string of 2³¹ times the letter a: the index of `reverse` has no room for its size. -/
theorem not_actsOnCharacters_long :
    ¬ ActsOnCharacters (fun _ => 0) (List.replicate (2 ^ 31) 'a') := by
  rintro ⟨-, -, -, -, str, hreverse, -⟩
  have hnul : Char.ofNat 0 ∉ List.replicate (2 ^ 31) 'a' := by
    intro hmem
    have heq := List.eq_of_mem_replicate hmem
    revert heq
    decide
  have hlt := SStringView.lt_of_reverse hnul hreverse
  have hle := length_le_encode (List.replicate (2 ^ 31) 'a')
  rw [List.length_replicate] at hle
  exact absurd hlt (Nat.not_lt.mpr hle)

end Sese.Text
