import Mathlib.Data.List.DropRight
import Sese.Text.AbstractStringBuffer

/-!
# The edits of a string buffer

What each operation of a buffer does to a block that holds a text, and when it has room to do it.
-/
namespace Sese.Text

open Foundation

namespace StringBuffer

variable {t tail src block : Bytes} {b b' : StringBuffer} {l n w : ℕ}

/-- The length fits into the capacity, and the capacity is one of a block in memory. -/
structure Sound (b : StringBuffer) : Prop where
  len_le : b.len ≤ b.cap
  cap_lt : b.cap < 2 ^ 63 + 1024

theorem sound_create {cap : ℕ} (h : cap < 2 ^ 63) : (create cap).Sound := by
  refine ⟨Nat.zero_le _, ?_⟩
  rw [create, StringBuffer.cap, List.length_replicate]
  omega

theorem length_text (h : b.len ≤ b.cap) : b.text.length = b.len := by
  rw [text, List.length_take]
  exact Nat.min_eq_left h

theorem exists_parts (h : b.len ≤ b.cap) : ∃ t tail, b = ⟨t ++ tail, t.length⟩ ∧ b.text = t := by
  refine ⟨b.text, b.buffer.drop b.len, ?_, rfl⟩
  rw [length_text h, text, List.take_append_drop]

theorem text_mk : (⟨t ++ tail, t.length⟩ : StringBuffer).text = t := List.take_left

/-- The capacity when there is room for `l` more octets. -/
def capFor (b : StringBuffer) (l : ℕ) : ℕ :=
  if l > b.cap - b.len then ((l + b.len) / 1024 + 1) * 1024 else b.cap

theorem reserve_eq (junk : ℕ → UInt8) (hcap : t.length + tail.length < sizeBound) (l : ℕ) :
    ∃ tail', reserve junk ⟨t ++ tail, t.length⟩ l = .ok ⟨t ++ tail', t.length⟩ ∧
      t.length + tail'.length = capFor ⟨t ++ tail, t.length⟩ l ∧ l ≤ tail'.length := by
  have hcapacity : (⟨t ++ tail, t.length⟩ : StringBuffer).cap = t.length + tail.length :=
    List.length_append
  have hfree : toSize (((t.length + tail.length : ℕ) : ℤ) - t.length) = tail.length := by
    rw [Nat.cast_add, add_sub_cancel_left]
    exact toSize_natCast (by omega)
  rw [reserve, capFor, hcapacity]
  dsimp only
  rw [hfree, Nat.add_sub_cancel_left]
  by_cases hmore : l > tail.length
  · have hload : load (t ++ tail) 0 t.length = .ok t := by
      rw [load, if_pos (by simp), window, List.drop_zero, List.take_left]
    have hlen := SStringView.length_malloc junk (((l + t.length) / 1024 + 1) * 1024)
    generalize hmalloc : SStringView.malloc junk (((l + t.length) / 1024 + 1) * 1024) = fresh at hlen
    have hstore : store fresh 0 t = .ok (t ++ fresh.drop t.length) :=
      store_left (by rfl : 0 = ([] : Bytes).length) (by omega)
    refine ⟨fresh.drop t.length, ?_, ?_, ?_⟩
    · rw [if_pos hmore, expansion, hload, ok_bind, hmalloc, hstore]
      rfl
    · rw [if_pos hmore, List.length_drop]
      omega
    · rw [List.length_drop]
      omega
  · refine ⟨tail, ?_, ?_, not_lt.mp hmore⟩
    · rw [if_neg hmore]
    · rw [if_neg hmore]

theorem append_eq (junk : ℕ → UInt8) (hcap : t.length + tail.length < sizeBound) {data : Bytes}
    (hl : l ≤ data.length) :
    ∃ tail', append junk ⟨t ++ tail, t.length⟩ data l =
        .ok ⟨(t ++ data.take l) ++ tail', (t ++ data.take l).length⟩ ∧
      (t ++ data.take l).length + tail'.length = capFor ⟨t ++ tail, t.length⟩ l := by
  have hlen : (data.take l).length = l := by
    rw [List.length_take]
    exact Nat.min_eq_left hl
  obtain ⟨tail', hreserve, hcapacity, hroom⟩ := reserve_eq junk hcap l
  have hload : load data 0 l = .ok (data.take l) := by
    rw [load, if_pos (by omega)]
    rfl
  have hstore : store (t ++ tail') t.length (data.take l) =
      .ok (t ++ (data.take l ++ tail'.drop l)) := by
    rw [store_left rfl (by omega), hlen]
  refine ⟨tail'.drop l, ?_, ?_⟩
  · rw [append, hreserve, ok_bind, hload, ok_bind, hstore, ok_bind, List.append_assoc,
      List.length_append, hlen]
    rfl
  · rw [List.length_append, hlen, List.length_drop]
    omega

theorem getElem?_middle (x : UInt8) (xs ys : Bytes) : (xs ++ x :: ys)[xs.length]? = some x := by
  rw [List.getElem?_append_right le_rfl, Nat.sub_self, List.getElem?_cons_zero]

theorem exists_ends {xs : Bytes} (h : 2 ≤ xs.length) :
    ∃ x inner y, xs = x :: (inner ++ [y]) := by
  cases xs with
  | nil => simp at h
  | cons x rest =>
    have hrest : rest ≠ [] := by
      rintro rfl
      simp at h
    exact ⟨x, rest.dropLast, rest.getLast hrest, by rw [List.dropLast_append_getLast hrest]⟩

theorem reverseLoop_eq (middle front back tail : Bytes) (hsame : back.length = front.length)
    (hlen : n = front.length + middle.length + back.length) (hbound : n < 2 ^ 32) :
    reverseLoop n (middle.length / 2) front.length (front ++ (middle ++ (back ++ tail))) =
      .ok (front ++ (middle.reverse ++ (back ++ tail))) := by
  induction htogo : middle.length / 2 generalizing front middle back with
  | zero =>
    rw [reverseLoop]
    cases middle with
    | nil => rfl
    | cons x middle =>
      have hnil : middle = [] := by
        rw [← List.length_eq_zero_iff]
        rw [List.length_cons] at htogo
        omega
      rw [hnil]
      rfl
  | succ togo ih =>
    obtain ⟨x, inner, y, rfl⟩ := exists_ends (by omega : 2 ≤ middle.length)
    have hinner : (x :: (inner ++ [y])).length = inner.length + 2 := by simp
    rw [hinner] at htogo hlen
    have hblock : front ++ (x :: (inner ++ [y]) ++ (back ++ tail)) =
        front ++ ([x] ++ (inner ++ [y] ++ back ++ tail)) := by simp
    have hblock' : front ++ ([y] ++ (inner ++ [y] ++ back ++ tail)) =
        (front ++ y :: inner) ++ ([y] ++ (back ++ tail)) := by simp
    have hplace : n - 1 - front.length = (front ++ y :: inner).length := by
      rw [List.length_append, List.length_cons]
      omega
    have hfirst : readAt (front ++ (x :: (inner ++ [y]) ++ (back ++ tail))) front.length = .ok x :=
      readAt_natCast _ (getElem?_middle x front _)
    have hlast : readAt (front ++ (x :: (inner ++ [y]) ++ (back ++ tail)))
        ((n - 1 - front.length : ℕ) : ℤ) = .ok y := by
      have hsplit : front ++ (x :: (inner ++ [y]) ++ (back ++ tail)) =
          (front ++ x :: inner) ++ y :: (back ++ tail) := by simp
      have hindex : n - 1 - front.length = (front ++ x :: inner).length := by
        rw [List.length_append, List.length_cons]
        omega
      rw [hsplit, hindex]
      exact readAt_natCast _ (getElem?_middle y _ _)
    have hstore : store (front ++ (x :: (inner ++ [y]) ++ (back ++ tail))) front.length [y] =
        .ok (front ++ y :: inner ++ ([y] ++ (back ++ tail))) := by
      rw [hblock, store_append rfl (by rfl : [y].length = [x].length), hblock']
    have hstore' : store (front ++ y :: inner ++ ([y] ++ (back ++ tail))) (n - 1 - front.length) [x] =
        .ok (front ++ [y] ++ (inner ++ (x :: back ++ tail))) := by
      rw [store_append hplace (by rfl : [x].length = [y].length)]
      simp
    have hindex : (front.length + 1 : ℤ) = ((front ++ [y]).length : ℕ) := by simp
    have hresult : front ++ ((x :: (inner ++ [y])).reverse ++ (back ++ tail)) =
        front ++ [y] ++ (inner.reverse ++ (x :: back ++ tail)) := by simp
    rw [reverseLoop, hfirst, ok_bind, hlast, ok_bind, hstore, ok_bind, hstore', ok_bind, hindex,
      checkInt_of_lt (by omega) (by simp; omega), ok_bind, Int.toNat_natCast, hresult]
    exact ih inner (front ++ [y]) (x :: back) (by simp [hsame]) (by simp; omega) (by omega)

theorem reverse_eq (hlen : t.length < 2 ^ 32) :
    reverse ⟨t ++ tail, t.length⟩ = .ok ⟨t.reverse ++ tail, t.length⟩ := by
  have hloop := reverseLoop_eq (n := t.length) t [] [] tail rfl (by simp) hlen
  rw [List.nil_append, List.nil_append, List.nil_append, List.length_nil] at hloop
  rw [reverse, hloop]
  rfl

theorem reverseLoop_lt {togo j : ℕ} {block' : Bytes}
    (h : reverseLoop n (togo + 1) j block = .ok block') : j + togo + 1 < 2 ^ 31 := by
  induction togo generalizing j block with
  | zero =>
    obtain ⟨c, -, h⟩ := bind_eq_ok.mp h
    obtain ⟨c', -, h⟩ := bind_eq_ok.mp h
    obtain ⟨block₁, -, h⟩ := bind_eq_ok.mp h
    obtain ⟨block₂, -, h⟩ := bind_eq_ok.mp h
    obtain ⟨i, hi, -⟩ := bind_eq_ok.mp h
    obtain ⟨rfl, -, hlt⟩ := checkInt_ok hi
    omega
  | succ togo ih =>
    rw [reverseLoop] at h
    obtain ⟨c, -, h⟩ := bind_eq_ok.mp h
    obtain ⟨c', -, h⟩ := bind_eq_ok.mp h
    obtain ⟨block₁, -, h⟩ := bind_eq_ok.mp h
    obtain ⟨block₂, -, h⟩ := bind_eq_ok.mp h
    obtain ⟨i, hi, h⟩ := bind_eq_ok.mp h
    obtain ⟨rfl, -, -⟩ := checkInt_ok hi
    have hlt := ih h
    omega

theorem reverse_lt (h : b.reverse = .ok b') : b.len < 2 ^ 32 := by
  obtain ⟨block, hloop, -⟩ := bind_eq_ok.mp h
  by_contra hlong
  obtain ⟨togo, htogo⟩ : ∃ k, b.len / 2 = k + 1 := ⟨b.len / 2 - 1, by omega⟩
  rw [htogo] at hloop
  have hlt := reverseLoop_lt hloop
  omega

theorem moveLoop_eq {togo i : ℕ} (hroom : i + w + togo ≤ block.length) (hbound : i + togo < 2 ^ 31) :
    moveLoop w togo i block =
      .ok (block.take i ++ (block.drop (i + w)).take togo ++ block.drop (i + togo)) := by
  induction togo generalizing i block with
  | zero => simp [moveLoop]
  | succ togo ih =>
    have hlt : i + w < block.length := by omega
    have hread : readAt block ((i + w : ℕ) : ℤ) = .ok block[i + w] :=
      readAt_natCast block (List.getElem?_eq_getElem hlt)
    have hstore : store block i [block[i + w]] = .ok (overwrite block i [block[i + w]]) := by
      rw [store, if_pos (by rw [List.length_singleton]; omega)]
    have hlen : (overwrite block i [block[i + w]]).length = block.length :=
      length_overwrite (by rw [List.length_singleton]; omega)
    have hindex : (i + 1 : ℤ) = ((i + 1 : ℕ) : ℤ) := by omega
    have htake : (overwrite block i [block[i + w]]).take (i + 1) = block.take i ++ [block[i + w]] :=
      take_overwrite_add (by omega) rfl
    have hdrop : ∀ j, i + 1 ≤ j → (overwrite block i [block[i + w]]).drop j = block.drop j := by
      intro j hj
      obtain ⟨k, rfl⟩ := Nat.exists_eq_add_of_le hj
      have hfront : (block.take i ++ [block[i + w]]).length = i + 1 := by
        rw [List.length_append, List.length_take, List.length_singleton]
        omega
      rw [← List.drop_drop, overwrite, ← hfront, List.drop_left, hfront, List.length_singleton,
        List.drop_drop]
    have hnext : (block.drop (i + w)).take (togo + 1) =
        block[i + w] :: (block.drop (i + 1 + w)).take togo := by
      rw [List.drop_eq_getElem_cons hlt, List.take_succ_cons, Nat.add_right_comm]
    have hrest : i + 1 + togo = i + (togo + 1) := by omega
    rw [moveLoop, hread, ok_bind, hstore, ok_bind, hindex, checkInt_of_lt (by omega) (by omega), ok_bind,
      Int.toNat_natCast, ih (by omega) (by omega), htake, hdrop _ (by omega), hdrop _ (by omega), hnext,
      hrest]
    simp only [List.append_assoc, List.nil_append, List.cons_append]

theorem moveLoop_text {togo i : ℕ} (tail : Bytes) (hlen : i + w + togo = t.length)
    (hbound : i + togo < 2 ^ 31) :
    moveLoop w togo i (t ++ tail) =
      .ok (t.take i ++ t.drop (i + w) ++ (t ++ tail).drop (i + togo)) := by
  have hlength : (t ++ tail).length = t.length + tail.length := List.length_append
  have hmoved : ((t ++ tail).drop (i + w)).take togo = t.drop (i + w) := by
    rw [List.drop_append_of_le_length (by omega)]
    exact List.take_left' (by rw [List.length_drop]; omega)
  rw [moveLoop_eq (by omega) hbound, hmoved, List.take_append_of_le_length (by omega)]

theorem moveLoop_lt {togo i : ℕ} {block' : Bytes}
    (h : moveLoop w (togo + 1) i block = .ok block') : i + togo + 1 < 2 ^ 31 := by
  induction togo generalizing i block with
  | zero =>
    obtain ⟨c, -, h⟩ := bind_eq_ok.mp h
    obtain ⟨block₁, -, h⟩ := bind_eq_ok.mp h
    obtain ⟨j, hj, -⟩ := bind_eq_ok.mp h
    obtain ⟨rfl, -, hlt⟩ := checkInt_ok hj
    omega
  | succ togo ih =>
    rw [moveLoop] at h
    obtain ⟨c, -, h⟩ := bind_eq_ok.mp h
    obtain ⟨block₁, -, h⟩ := bind_eq_ok.mp h
    obtain ⟨j, hj, h⟩ := bind_eq_ok.mp h
    obtain ⟨rfl, -, -⟩ := checkInt_ok hj
    have hlt := ih h
    omega

theorem delCharAt_rejected {index : ℤ} (h : ¬ checkRange index b.len) :
    b.delCharAt index = .ok (b, false) := if_pos h

theorem store_nul (block : Bytes) (hn : n < block.length) :
    ∃ rest, store block n [0] = .ok (block.take n ++ rest) ∧
      (block.take n ++ rest).length = block.length := by
  refine ⟨[0] ++ block.drop (n + 1), ?_, ?_⟩
  · rw [store, if_pos (by rw [List.length_singleton]; omega), overwrite, List.append_assoc]
    rfl
  · rw [List.length_append, List.length_append, List.length_take, List.length_drop,
      List.length_singleton]
    omega

theorem delCharAt_eq {i : ℕ} (hi : i < t.length) (hlen : t.length ≤ 2 ^ 31) :
    ∃ tail', delCharAt ⟨t ++ tail, t.length⟩ i =
        .ok (⟨t.eraseIdx i ++ tail', (t.eraseIdx i).length⟩, true) ∧
      (t.eraseIdx i ++ tail').length = (t ++ tail).length := by
  have hrange : checkRange i t.length = true := by
    unfold checkRange
    simp only [decide_eq_true_eq]
    omega
  have herase : (t.eraseIdx i).length = t.length - 1 := List.length_eraseIdx_of_lt hi
  have hsize : toSize (i : ℤ) = i := toSize_natCast (by unfold sizeBound; omega)
  have hlength : (t ++ tail).length = t.length + tail.length := List.length_append
  rw [delCharAt, if_neg (by simp [hrange])]
  dsimp only
  rw [hsize, Int.toNat_natCast]
  by_cases hlast : i < t.length - 1
  · -- the octets behind are moved by one place
    have hlen' : i + 1 + (t.length - 1 - i) = t.length := by omega
    have hstop : (t.eraseIdx i ++ (t ++ tail).drop (i + (t.length - 1 - i))).take (t.length - 1) =
        t.eraseIdx i := List.take_left' herase
    obtain ⟨rest, hstore, hrest⟩ := store_nul (n := t.length - 1)
      (t.eraseIdx i ++ (t ++ tail).drop (i + (t.length - 1 - i)))
      (by rw [List.length_append, List.length_drop]; omega)
    rw [hstop] at hstore hrest
    refine ⟨rest, ?_, ?_⟩
    · rw [if_pos hlast, moveLoop_text tail hlen' (by omega), ← List.eraseIdx_eq_take_drop_succ, ok_bind,
        hstore, herase]
      rfl
    · rw [hrest, List.length_append, List.length_drop]
      omega
  · have hindex : i = t.length - 1 := by omega
    obtain ⟨rest, hstore, hrest⟩ := store_nul (n := t.length - 1) (t ++ tail) (by omega)
    have htake : (t ++ tail).take (t.length - 1) = t.eraseIdx i := by
      rw [List.take_append_of_le_length (by omega), hindex, List.eraseIdx_eq_take_drop_succ,
        Nat.sub_add_cancel (by omega), List.drop_length, List.append_nil]
    rw [htake] at hstore hrest
    refine ⟨rest, ?_, hrest⟩
    rw [if_neg hlast, ok_bind, hstore, herase]
    rfl

theorem delCharAt_lt {i : ℕ} (hi : i < b.len) (hint : i < 2 ^ 31)
    (h : b.delCharAt i = .ok (b', true)) : b.len ≤ 2 ^ 31 := by
  by_cases hlast : i < b.len - 1
  · obtain ⟨togo, htogo⟩ : ∃ k, b.len - 1 - i = k + 1 := ⟨b.len - 1 - i - 1, by omega⟩
    have hrange : checkRange (i : ℤ) b.len = true := by
      unfold checkRange
      simp only [decide_eq_true_eq]
      omega
    rw [delCharAt, if_neg (by simp [hrange])] at h
    dsimp only at h
    rw [toSize_natCast (by unfold sizeBound; omega), Int.toNat_natCast, if_pos hlast, htogo] at h
    obtain ⟨block, hloop, -⟩ := bind_eq_ok.mp h
    have hlt := moveLoop_lt hloop
    omega
  · omega

theorem del_eq {s : ℕ} (hstop : s + l ≤ t.length) (hint : s + l < 2 ^ 31)
    (hroom : t.length - l < t.length + tail.length) :
    ∃ tail', del ⟨t ++ tail, t.length⟩ s l =
        .ok (⟨(t.take s ++ t.drop (s + l)) ++ tail', (t.take s ++ t.drop (s + l)).length⟩, true) ∧
      (t.take s ++ t.drop (s + l) ++ tail').length = (t ++ tail).length := by
  have hlength : (t ++ tail).length = t.length + tail.length := List.length_append
  have hcut : (t.take s ++ t.drop (s + l)).length = t.length - l := by
    rw [List.length_append, List.length_take, List.length_drop]
    omega
  have hstopint : (s + l : ℤ) = ((s + l : ℕ) : ℤ) := by omega
  have hload : load (t ++ tail) (s + l) (t.length - (s + l)) = .ok (t.drop (s + l)) := by
    rw [load, if_pos (by omega), window, List.drop_append_of_le_length hstop]
    congr 1
    exact List.take_left' (by rw [List.length_drop])
  have hstore : store (t ++ tail) s (t.drop (s + l)) =
      .ok (t.take s ++ t.drop (s + l) ++ (t ++ tail).drop (s + (t.length - (s + l)))) := by
    rw [store, if_pos (by rw [List.length_drop]; omega), overwrite, List.length_drop,
      List.take_append_of_le_length (by omega)]
  obtain ⟨rest, hnul, hrest⟩ := store_nul (n := t.length - l)
    (t.take s ++ t.drop (s + l) ++ (t ++ tail).drop (s + (t.length - (s + l))))
    (by rw [List.length_append, hcut, List.length_drop]; omega)
  rw [List.take_left' hcut] at hnul hrest
  refine ⟨rest, ?_, ?_⟩
  · have hcount : (t.length - ((s + l : ℕ) : ℤ)).toNat = t.length - (s + l) := by omega
    have hlen : (t.length - (l : ℤ)).toNat = t.length - l := by omega
    rw [del, if_neg (by omega), hstopint, checkInt_of_lt (by omega) (by omega), ok_bind,
      toSize_natCast (by unfold sizeBound; omega), if_neg (by dsimp only; omega)]
    dsimp only
    rw [Int.toNat_natCast, hcount, hload, ok_bind, Int.toNat_natCast, hstore, ok_bind, hlen, hnul, hcut]
    rfl
  · rw [hrest, List.length_append, hcut, List.length_drop]
    omega

theorem insertAt_rejected (junk : ℕ → UInt8) {index : ℤ} (h : b.cap ≤ toSize index) (data : Bytes)
    (l : ℕ) : b.insertAt junk index data l = .ok (b, false) := if_pos h

theorem insertAt_eq (junk : ℕ → UInt8) (hcap : t.length + tail.length < sizeBound) {i : ℕ}
    {data : Bytes} (hi : i ≤ t.length) (hl : l ≤ data.length) (hin : i < t.length + tail.length)
    (hroom : i + l + t.length ≤ capFor ⟨t ++ tail, t.length⟩ l) :
    ∃ tail', insertAt junk ⟨t ++ tail, t.length⟩ i data l =
        .ok (⟨(t.take i ++ data.take l ++ t.drop i) ++ tail',
          (t.take i ++ data.take l ++ t.drop i).length⟩, true) ∧
      (t.take i ++ data.take l ++ t.drop i ++ tail').length = capFor ⟨t ++ tail, t.length⟩ l := by
  have hcapacity : (⟨t ++ tail, t.length⟩ : StringBuffer).cap = t.length + tail.length :=
    List.length_append
  have hsrc : (data.take l).length = l := by
    rw [List.length_take]
    exact Nat.min_eq_left hl
  obtain ⟨tail', hreserve, htail, hfree⟩ := reserve_eq junk hcap l
  have hlength : (t ++ tail').length = t.length + tail'.length := List.length_append
  have hmoved : (window (t ++ tail') i t.length).length = t.length := length_window (by omega)
  have hload : load (t ++ tail') i t.length = .ok (window (t ++ tail') i t.length) := by
    rw [load, if_pos (by omega)]
  have hstore : store (t ++ tail') (i + l) (window (t ++ tail') i t.length) =
      .ok (overwrite (t ++ tail') (i + l) (window (t ++ tail') i t.length)) := by
    rw [store, if_pos (by omega)]
  have hdata : load data 0 l = .ok (data.take l) := by
    rw [load, if_pos (by omega)]
    rfl
  have hblock : (overwrite (t ++ tail') (i + l) (window (t ++ tail') i t.length)).length =
      t.length + tail'.length := by
    rw [length_overwrite (by omega), hlength]
  have hstore' : store (overwrite (t ++ tail') (i + l) (window (t ++ tail') i t.length)) i
      (data.take l) = .ok (overwrite (overwrite (t ++ tail') (i + l)
        (window (t ++ tail') i t.length)) i (data.take l)) := by
    rw [store, if_pos (by omega)]
  have hwindow : window (t ++ tail') i t.length = t.drop i ++ tail'.take i := by
    have hcount : t.length - (t.length - i) = i := by omega
    rw [window, List.drop_append_of_le_length hi, List.take_append, List.length_drop, hcount,
      List.take_of_length_le (by rw [List.length_drop]; omega)]
  have htake : (t ++ tail').take i = t.take i := List.take_append_of_le_length hi
  have hfront : ((t ++ tail').take (i + l)).length = i + l := by
    rw [List.length_take]
    omega
  have hresult : overwrite (overwrite (t ++ tail') (i + l) (window (t ++ tail') i t.length)) i
      (data.take l) = (t.take i ++ data.take l ++ t.drop i) ++
        (tail'.take i ++ (t ++ tail').drop (i + l + t.length)) := by
    rw [overwrite, take_overwrite (by omega) (by omega), htake, hsrc, overwrite, hmoved, hwindow]
    rw [List.append_assoc ((t ++ tail').take (i + l)), List.drop_left' hfront]
    simp only [List.append_assoc]
  have htext : (t.take i ++ data.take l ++ t.drop i).length = t.length + l := by
    rw [List.length_append, List.length_append, List.length_take, List.length_drop, hsrc]
    omega
  refine ⟨tail'.take i ++ (t ++ tail').drop (i + l + t.length), ?_, ?_⟩
  · rw [insertAt, hcapacity, toSize_natCast (by omega), if_neg (by omega), if_neg (by omega), hreserve,
      ok_bind]
    dsimp only
    rw [Int.toNat_natCast, hload, ok_bind, hstore, ok_bind, hdata, ok_bind, hstore', ok_bind, hresult,
      htext]
    rfl
  · rw [← hresult, length_overwrite (by omega), hblock, htail]

theorem insertAt_room (junk : ℕ → UInt8) (hcap : t.length + tail.length < sizeBound) {i : ℕ}
    (hi : i < 2 ^ 31) {data : Bytes} (h : insertAt junk ⟨t ++ tail, t.length⟩ i data l = .ok (b', true)) :
    i < t.length + tail.length ∧ i + l + t.length ≤ capFor ⟨t ++ tail, t.length⟩ l := by
  have hcapacity : (⟨t ++ tail, t.length⟩ : StringBuffer).cap = t.length + tail.length :=
    List.length_append
  obtain ⟨tail', hreserve, htail, -⟩ := reserve_eq junk hcap l
  rw [insertAt, hcapacity] at h
  rw [toSize_natCast (by unfold sizeBound; omega)] at h
  split_ifs at h with hfull hneg
  · cases h
  · rw [hreserve, ok_bind] at h
    obtain ⟨moved, hload, h⟩ := bind_eq_ok.mp h
    obtain ⟨block, hstore, -⟩ := bind_eq_ok.mp h
    unfold load at hload
    unfold store at hstore
    dsimp only at hload hstore
    split_ifs at hload hstore with hin hfit
    obtain rfl := Except.ok.inj hload
    rw [length_window hin, List.length_append, Int.toNat_natCast] at hfit
    exact ⟨not_le.mp hfull, by omega⟩

theorem trimEndLoop_eq (t tail : Bytes) (w : ℕ) :
    ∃ tail', trimEndLoop t.length w (t ++ tail) =
        .ok (t.rdropWhile isSpace ++ tail', w + (t.length - (t.rdropWhile isSpace).length)) ∧
      (t.rdropWhile isSpace ++ tail').length = (t ++ tail).length := by
  induction t using List.reverseRecOn generalizing tail w with
  | nil => exact ⟨tail, by simp [trimEndLoop], by simp⟩
  | append_singleton t c ih =>
    have hread : readAt (t ++ [c] ++ tail) t.length = .ok c := by
      rw [List.append_assoc]
      exact readAt_natCast _ (getElem?_middle c t tail)
    rw [List.length_append, List.length_singleton, trimEndLoop, hread, ok_bind]
    by_cases hspace : isSpace c = true
    · have hstore : store (t ++ [c] ++ tail) t.length [0] = .ok (t ++ ([0] ++ tail)) := by
        rw [List.append_assoc]
        exact store_append rfl (by rfl : [(0 : UInt8)].length = [c].length)
      obtain ⟨tail', hloop, hlen⟩ := ih ([0] ++ tail) (w + 1)
      have hle := List.IsPrefix.length_le ( List.rdropWhile_prefix isSpace (l := t))
      have hcount : w + 1 + (t.length - (t.rdropWhile isSpace).length) =
          w + (t.length + 1 - (t.rdropWhile isSpace).length) := by omega
      refine ⟨tail', ?_, ?_⟩
      · rw [if_pos hspace, hstore, ok_bind, hloop, List.rdropWhile_concat_pos _ _ _ hspace, hcount]
      · rw [List.rdropWhile_concat_pos _ _ _ hspace, hlen]
        simp
    · refine ⟨tail, ?_, ?_⟩
      · rw [if_neg hspace, List.rdropWhile_concat_neg _ _ _ hspace, List.length_append,
          List.length_singleton, Nat.sub_self, Nat.add_zero]
        rfl
      · rw [List.rdropWhile_concat_neg _ _ _ hspace]

theorem exists_not_space {r : Bytes} (hr : r = t.rdropWhile isSpace) (hne : r ≠ []) :
    ∃ c ∈ r, ¬ isSpace c = true := by
  subst hr
  exact ⟨_, List.getLast_mem hne, List.rdropWhile_last_not isSpace t hne⟩

theorem trimStartLoop_eq (front tail : Bytes) {r : Bytes} (hr : ∃ c ∈ r, ¬ isSpace c = true)
    (hbound : front.length + (r.takeWhile isSpace).length < 2 ^ 31) :
    trimStartLoop (front ++ (r ++ tail)) r.length front.length =
      .ok (front.length + (r.takeWhile isSpace).length) := by
  induction r generalizing front with
  | nil => simp at hr
  | cons c r ih =>
    have hread : readAt (front ++ (c :: r ++ tail)) front.length = .ok c :=
      readAt_natCast _ (getElem?_middle c front _)
    rw [List.length_cons, trimStartLoop, hread, ok_bind]
    by_cases hspace : isSpace c = true
    · have hrest : ∃ c ∈ r, ¬ isSpace c = true := by
        obtain ⟨c', hmem, hc'⟩ := hr
        rcases List.mem_cons.mp hmem with rfl | hmem
        · exact absurd hspace hc'
        · exact ⟨c', hmem, hc'⟩
      rw [List.takeWhile_cons_of_pos hspace, List.length_cons] at hbound ⊢
      have hnext := ih (front ++ [c]) hrest (by simp; omega)
      have hindex : (front.length + 1 : ℤ) = ((front ++ [c]).length : ℕ) := by simp
      have hblock : front ++ (c :: r ++ tail) = front ++ [c] ++ (r ++ tail) := by simp
      rw [if_neg (by simp [hspace]), hindex, checkInt_of_lt (by omega) (by simp; omega), ok_bind,
        Int.toNat_natCast, hblock, hnext, List.length_append, List.length_singleton, Nat.add_assoc,
        Nat.add_comm 1]
    · rw [List.takeWhile_cons_of_neg hspace, if_pos (by simpa using hspace)]
      rfl

theorem trimStartLoop_lt (front tail : Bytes) {r : Bytes} {i : ℕ}
    (hr : ∃ c ∈ r, ¬ isSpace c = true) (hfront : front.length < 2 ^ 31)
    (h : trimStartLoop (front ++ (r ++ tail)) r.length front.length = .ok i) :
    front.length + (r.takeWhile isSpace).length < 2 ^ 31 := by
  induction r generalizing front with
  | nil => simp at hr
  | cons c r ih =>
    have hread : readAt (front ++ (c :: r ++ tail)) front.length = .ok c :=
      readAt_natCast _ (getElem?_middle c front _)
    rw [List.length_cons, trimStartLoop, hread, ok_bind] at h
    by_cases hspace : isSpace c = true
    · have hrest : ∃ c ∈ r, ¬ isSpace c = true := by
        obtain ⟨c', hmem, hc'⟩ := hr
        rcases List.mem_cons.mp hmem with rfl | hmem
        · exact absurd hspace hc'
        · exact ⟨c', hmem, hc'⟩
      have hindex : (front.length + 1 : ℤ) = ((front ++ [c]).length : ℕ) := by simp
      have hblock : front ++ (c :: r ++ tail) = front ++ [c] ++ (r ++ tail) := by simp
      rw [if_neg (by simp [hspace]), hblock] at h
      obtain ⟨j, hj, h⟩ := bind_eq_ok.mp h
      obtain ⟨rfl, -, hlt⟩ := checkInt_ok hj
      rw [hindex] at h hlt
      rw [Int.toNat_natCast] at h
      have hnext := ih (front ++ [c]) hrest (by omega) h
      rw [List.takeWhile_cons_of_pos hspace, List.length_cons]
      rw [List.length_append, List.length_singleton] at hnext
      omega
    · rw [List.takeWhile_cons_of_neg hspace]
      simpa using hfront

def trimmed (t : Bytes) : Bytes := (t.rdropWhile isSpace).dropWhile isSpace

/-- The white space in front of a text whose end is none. -/
def leading (t : Bytes) : ℕ := ((t.rdropWhile isSpace).takeWhile isSpace).length

theorem trimmed_eq_drop (t : Bytes) : trimmed t = (t.rdropWhile isSpace).drop (leading t) := by
  have hparts := List.takeWhile_append_dropWhile (p := isSpace) (l := t.rdropWhile isSpace)
  conv_rhs => rw [← hparts]
  exact List.drop_left.symm

theorem length_trimmed (t : Bytes) :
    (trimmed t).length = (t.rdropWhile isSpace).length - leading t := by
  rw [trimmed_eq_drop, List.length_drop]

theorem leading_le (t : Bytes) : leading t ≤ (t.rdropWhile isSpace).length :=
  (List.takeWhile_sublist isSpace).length_le

theorem trimLoops_eq (t tail : Bytes) (hleading : leading t < 2 ^ 31) :
    ∃ tail', trimEndLoop t.length 0 (t ++ tail) =
        .ok (t.rdropWhile isSpace ++ tail', t.length - (t.rdropWhile isSpace).length) ∧
      trimStartLoop (t.rdropWhile isSpace ++ tail') (t.rdropWhile isSpace).length 0 =
        .ok (leading t) ∧
      (t.rdropWhile isSpace ++ tail').length = (t ++ tail).length := by
  obtain ⟨tail', hloop, hlen⟩ := trimEndLoop_eq t tail 0
  rw [Nat.zero_add] at hloop
  refine ⟨tail', hloop, ?_, hlen⟩
  by_cases hempty : t.rdropWhile isSpace = []
  · rw [leading, hempty]
    rfl
  · have hstart := trimStartLoop_eq [] tail' (exists_not_space rfl hempty)
      (by rw [List.length_nil, Nat.zero_add]; exact hleading)
    rwa [List.length_nil, Nat.zero_add] at hstart

theorem trim_eq (hleading : leading t < 2 ^ 31) (hrest : (trimmed t).length < 2 ^ 31)
    (hroom : (t.rdropWhile isSpace).length < t.length + tail.length) :
    ∃ tail', trim ⟨t ++ tail, t.length⟩ = .ok ⟨trimmed t ++ tail', (trimmed t).length⟩ ∧
      (trimmed t ++ tail').length = (t ++ tail).length := by
  obtain ⟨tail₁, hend, hstart, hlen⟩ := trimLoops_eq t tail hleading
  have hle : (t.rdropWhile isSpace).length ≤ t.length :=
    List.IsPrefix.length_le ( List.rdropWhile_prefix isSpace (l := t))
  have hlead := leading_le t
  rw [length_trimmed] at hrest
  rw [List.length_append, List.length_append] at hlen
  have hcount : t.length - (t.length - (t.rdropWhile isSpace).length) =
      (t.rdropWhile isSpace).length := by omega
  have hsum : 0 + leading t + ((t.rdropWhile isSpace).length - leading t) =
      (t.rdropWhile isSpace).length := by omega
  have hmove := moveLoop_text tail₁ hsum (by omega)
  rw [List.take_zero, List.nil_append, Nat.zero_add, Nat.zero_add, ← trimmed_eq_drop] at hmove
  generalize hback : (t.rdropWhile isSpace ++ tail₁).drop
    ((t.rdropWhile isSpace).length - leading t) = back at hmove
  have hbacklen := congrArg List.length hback
  rw [List.length_drop, List.length_append] at hbacklen
  have htrim := length_trimmed t
  have hzero : memset (trimmed t ++ back) ((t.rdropWhile isSpace).length - leading t) 0
      (leading t + 1) = .ok (trimmed t ++ (List.replicate (leading t + 1) 0 ++
        back.drop (leading t + 1))) := by
    rw [memset_eq_store, store_left htrim.symm (by rw [List.length_replicate]; omega),
      List.length_replicate]
  refine ⟨List.replicate (leading t + 1) 0 ++ back.drop (leading t + 1), ?_, ?_⟩
  · rw [trim]
    dsimp only
    rw [hend, ok_bind]
    dsimp only
    rw [hcount, hstart, ok_bind, hmove, ok_bind, hzero, ok_bind, ← htrim]
    rfl
  · rw [List.length_append, List.length_append, List.length_replicate, List.length_drop,
      List.length_append]
    omega

theorem trim_lt (h : trim ⟨t ++ tail, t.length⟩ = .ok b') :
    leading t < 2 ^ 31 ∧ (trimmed t).length < 2 ^ 31 ∧
      (t.rdropWhile isSpace).length < t.length + tail.length := by
  have hle : (t.rdropWhile isSpace).length ≤ t.length :=
    List.IsPrefix.length_le ( List.rdropWhile_prefix isSpace (l := t))
  have hcount : t.length - (t.length - (t.rdropWhile isSpace).length) =
      (t.rdropWhile isSpace).length := by omega
  have hlead := leading_le t
  obtain ⟨⟨block, w⟩, hend, h⟩ := bind_eq_ok.mp h
  dsimp only at hend h
  obtain ⟨w', hstart, h⟩ := bind_eq_ok.mp h
  have hleading : leading t < 2 ^ 31 := by
    obtain ⟨tail₁, hend', -⟩ := trimEndLoop_eq t tail 0
    rw [hend, Nat.zero_add] at hend'
    obtain ⟨rfl, rfl⟩ := Prod.mk.inj (Except.ok.inj hend')
    rw [hcount] at hstart
    by_cases hempty : t.rdropWhile isSpace = []
    · rw [leading, hempty]
      norm_num
    · have hlt := trimStartLoop_lt [] tail₁ (exists_not_space rfl hempty) (by norm_num) hstart
      rwa [List.length_nil, Nat.zero_add] at hlt
  refine ⟨hleading, ?_⟩
  obtain ⟨tail₁, hend', hstart', hlen⟩ := trimLoops_eq t tail hleading
  rw [hend] at hend'
  obtain ⟨rfl, rfl⟩ := Prod.mk.inj (Except.ok.inj hend')
  rw [hcount] at hstart h
  rw [hstart'] at hstart
  obtain rfl := Except.ok.inj hstart
  rw [length_trimmed]
  obtain ⟨block, hmove, h⟩ := bind_eq_ok.mp h
  obtain ⟨block', hzero, -⟩ := bind_eq_ok.mp h
  have hbound : (t.rdropWhile isSpace).length - leading t < 2 ^ 31 := by
    by_contra hlong
    obtain ⟨togo, htogo⟩ : ∃ k, (t.rdropWhile isSpace).length - leading t = k + 1 :=
      ⟨(t.rdropWhile isSpace).length - leading t - 1, by omega⟩
    rw [htogo] at hmove
    have hlt := moveLoop_lt hmove
    omega
  refine ⟨hbound, ?_⟩
  have hsum : 0 + leading t + ((t.rdropWhile isSpace).length - leading t) =
      (t.rdropWhile isSpace).length := by omega
  rw [moveLoop_text tail₁ hsum (by omega)] at hmove
  obtain rfl := Except.ok.inj hmove
  unfold memset at hzero
  split_ifs at hzero with hfit
  simp only [List.length_append, List.length_take, List.length_drop] at hfit hlen
  omega

end StringBuffer
end Sese.Text
