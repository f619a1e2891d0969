import Sese.Foundation.Runs
import Sese.Text.BufferEdits

/-!
# Runs of a string buffer

A buffer beside a list of octets that is edited by the same operations: the answers and the texts
are the same as long as no operation comes to the end of the block.
-/
namespace Sese.Text

open Foundation

namespace StringBuffer

/-- The operations, with what an allocation leaves in its block. -/
inductive Edit
  | append (s : Bytes)
  | appendString (view : SStringView)
  | insertAt (index : ℤ) (s : Bytes)
  | insertStringAt (index : ℤ) (view : SStringView)
  | del (start l : ℤ)
  | delCharAt (index : ℤ)
  | trim
  | reverse
  | clear

/-- An operation of the buffer. One without a result answers `true`. -/
def act (b : StringBuffer) (e : Edit × (ℕ → UInt8)) : Except Fault (Bool × StringBuffer) :=
  match e.1 with
  | .append s => do
    let b ← b.append e.2 s s.length
    return (true, b)
  | .appendString view => do
    let b ← b.appendString e.2 view
    return (true, b)
  | .insertAt index s => do
    let r ← b.insertAt e.2 index s s.length
    return (r.2, r.1)
  | .insertStringAt index view => do
    let r ← b.insertStringAt e.2 index view
    return (r.2, r.1)
  | .del start l => do
    let r ← b.del start l
    return (r.2, r.1)
  | .delCharAt index => do
    let r ← b.delCharAt index
    return (r.2, r.1)
  | .trim => do
    let b ← b.trim
    return (true, b)
  | .reverse => do
    let b ← b.reverse
    return (true, b)
  | .clear => .ok (true, b.clear)

/-- The same operation on a list: `false` for a place that is not in it. -/
def reply (t : Bytes) (e : Edit × (ℕ → UInt8)) : Bool :=
  match e.1 with
  | .insertAt index _ => decide (0 ≤ index ∧ index ≤ t.length)
  | .insertStringAt index _ => decide (0 ≤ index ∧ index ≤ t.length)
  | .del start l => decide (0 ≤ start ∧ 0 ≤ l ∧ start + l ≤ t.length)
  | .delCharAt index => decide (0 ≤ index ∧ index < t.length)
  | _ => true

def inserted (t : Bytes) (index : ℤ) (s : Bytes) : Bytes :=
  if 0 ≤ index ∧ index ≤ t.length then t.take index.toNat ++ s ++ t.drop index.toNat else t

def after (t : Bytes) (e : Edit × (ℕ → UInt8)) : Bytes :=
  match e.1 with
  | .append s => t ++ s
  | .appendString view => t ++ view.text
  | .insertAt index s => inserted t index s
  | .insertStringAt index view => inserted t index view.text
  | .del start l =>
    if 0 ≤ start ∧ 0 ≤ l ∧ start + l ≤ t.length then t.take start.toNat ++ t.drop (start + l).toNat
    else t
  | .delCharAt index => if 0 ≤ index ∧ index < t.length then t.eraseIdx index.toNat else t
  | .trim => trimmed t
  | .reverse => t.reverse
  | .clear => []

/-- A value of `int`. -/
def IsInt (i : ℤ) : Prop := -2 ^ 31 ≤ i ∧ i < 2 ^ 31

/-- The indices are of type `int`, the views are views of memory, and the buffer and what is put
into it are in memory together. -/
def Possible (b : StringBuffer) (e : Edit × (ℕ → UInt8)) : Prop :=
  match e.1 with
  | .append s => s.length + b.len < 2 ^ 63
  | .appendString view => view.size ≤ view.data.length ∧ view.data.length + b.len < 2 ^ 63
  | .insertAt index s => IsInt index ∧ s.length + b.len < 2 ^ 63
  | .insertStringAt index view =>
    IsInt index ∧ view.size ≤ view.data.length ∧ view.data.length + b.len < 2 ^ 63
  | .del start l => IsInt start ∧ IsInt l
  | .delCharAt index => IsInt index
  | _ => True

/-- The place is not in the text, and `insertAt` sees that. -/
def Outside (b : StringBuffer) (index : ℤ) : Prop := index < 0 ∨ b.len < index ∧ b.cap ≤ index

/-- The place is in the text, and there is room for as many octets as the whole text has behind the
ones that are inserted there. -/
def Insertable (b : StringBuffer) (index : ℤ) (l : ℕ) : Prop :=
  0 ≤ index ∧ index ≤ b.len ∧ index < b.cap ∧ index + l + b.len ≤ b.capFor l

/-- The operation does not come to the end of the block, nor to the end of `int`. -/
def Fine (b : StringBuffer) (e : Edit × (ℕ → UInt8)) : Prop :=
  match e.1 with
  | .append _ => True
  | .appendString view => view.len = .ok view.size
  | .insertAt index s => b.Outside index ∨ b.Insertable index s.length
  | .insertStringAt index view =>
    ∃ l, view.len = .ok l ∧ (b.Outside index ∨ l = view.size ∧ b.Insertable index l)
  | .del start l =>
    start < 0 ∨ start + l < 2 ^ 31 ∧
      (start + l < 0 ∨ b.len < start + l ∨ 0 ≤ l ∧ b.len - l < b.cap)
  | .delCharAt index => ¬ checkRange index b.len ∨ 0 ≤ index ∧ b.len ≤ 2 ^ 31
  | .trim => leading b.text < 2 ^ 31 ∧ (trimmed b.text).length < 2 ^ 31 ∧
      (b.text.rdropWhile isSpace).length < b.cap
  | .reverse => b.len < 2 ^ 32
  | .clear => True

variable {b b' : StringBuffer} {t tail : Bytes} {index : ℤ} {l : ℕ}

theorem capFor_lt (h : b.Sound) (hl : l + b.len < 2 ^ 63) : b.capFor l < 2 ^ 63 + 1024 := by
  have := h.cap_lt
  unfold capFor
  split_ifs <;> omega

theorem sound_mk (h : (t ++ tail).length < 2 ^ 63 + 1024) :
    (⟨t ++ tail, t.length⟩ : StringBuffer).Sound := by
  refine ⟨?_, h⟩
  change t.length ≤ (t ++ tail).length
  rw [List.length_append]
  omega

theorem cap_mk : (⟨t ++ tail, t.length⟩ : StringBuffer).cap = t.length + tail.length :=
  List.length_append

theorem Sound.exists_parts (h : b.Sound) :
    ∃ t tail, b = ⟨t ++ tail, t.length⟩ ∧ b.text = t ∧ t.length + tail.length < 2 ^ 63 + 1024 := by
  obtain ⟨t, tail, hparts, htext⟩ := StringBuffer.exists_parts h.len_le
  have hcap := h.cap_lt
  rw [hparts, cap_mk] at hcap
  exact ⟨t, tail, hparts, htext, hcap⟩

theorem lt_sizeBound {n : ℕ} (h : n < 2 ^ 63 + 1024) : n < sizeBound := by
  unfold sizeBound
  omega

/-- What an operation is to do: it gives the answer and the text that the list gives. -/
def Does (b : StringBuffer) (e : Edit × (ℕ → UInt8)) : Prop :=
  ∃ b', act b e = .ok (reply b.text e, b') ∧ b'.Sound ∧ b'.text = after b.text e

theorem append_does (junk : ℕ → UInt8) (h : b.Sound) {data : Bytes} (hl : l ≤ data.length)
    (hmemory : l + b.len < 2 ^ 63) :
    ∃ b', b.append junk data l = .ok b' ∧ b'.Sound ∧ b'.text = b.text ++ data.take l := by
  have hcap := capFor_lt h hmemory
  obtain ⟨t, tail, rfl, htext, hbound⟩ := h.exists_parts
  obtain ⟨tail', happend, hlen⟩ := append_eq junk (lt_sizeBound hbound) hl
  have hsound : (t ++ data.take l ++ tail').length < 2 ^ 63 + 1024 := by
    rw [List.length_append, hlen]
    exact hcap
  refine ⟨_, happend, sound_mk hsound, ?_⟩
  rw [text_mk, htext]

/-- The place is outside the text and not in the block. -/
theorem insertAt_outside (junk : ℕ → UInt8) (h : b.Sound) (hint : IsInt index)
    (hout : b.Outside index) (data : Bytes) (l : ℕ) :
    b.insertAt junk index data l = .ok (b, false) ∧ ¬ (0 ≤ index ∧ index ≤ b.len) := by
  unfold IsInt at hint
  have hcap := h.cap_lt
  rcases hout with hneg | ⟨hlong, hfull⟩
  · have hfull : b.cap ≤ toSize index := by
      unfold toSize sizeBound
      omega
    exact ⟨insertAt_rejected junk hfull data l, by omega⟩
  · have hfull : b.cap ≤ toSize index := by
      unfold toSize sizeBound
      omega
    exact ⟨insertAt_rejected junk hfull data l, by omega⟩

theorem inserted_does (junk : ℕ → UInt8) (h : b.Sound) {data : Bytes} (hint : IsInt index)
    (hl : l ≤ data.length) (hmemory : l + b.len < 2 ^ 63) (hfine : b.Insertable index l) :
    ∃ b', b.insertAt junk index data l =
        .ok (b', decide (0 ≤ index ∧ index ≤ b.text.length)) ∧ b'.Sound ∧
      b'.text = inserted b.text index (data.take l) := by
  have hcap := capFor_lt h hmemory
  obtain ⟨hlow, hin, hroom, hfits⟩ := hfine
  obtain ⟨i, rfl⟩ := Int.eq_ofNat_of_zero_le hlow
  obtain ⟨t, tail, rfl, htext, hbound⟩ := h.exists_parts
  rw [cap_mk] at hroom
  dsimp only at hin hfits
  obtain ⟨tail', hinsert, hlen'⟩ := insertAt_eq junk (lt_sizeBound hbound) (by omega : i ≤ t.length)
    hl (by omega) (by omega)
  have hyes : 0 ≤ (i : ℤ) ∧ (i : ℤ) ≤ t.length := ⟨hlow, hin⟩
  have hsound : (t.take i ++ data.take l ++ t.drop i ++ tail').length < 2 ^ 63 + 1024 := by
    rw [hlen']
    exact hcap
  rw [htext]
  refine ⟨_, ?_, sound_mk hsound, ?_⟩
  · rw [hinsert, decide_eq_true hyes]
  · rw [text_mk, inserted, if_pos hyes, Int.toNat_natCast]

theorem append_le (junk : ℕ → UInt8) (h : b.Sound) {data : Bytes}
    (happend : b.append junk data l = .ok b') : l ≤ data.length := by
  obtain ⟨t, tail, rfl, -, hbound⟩ := h.exists_parts
  obtain ⟨tail', hreserve, -, -⟩ := reserve_eq junk (lt_sizeBound hbound) l
  rw [append, hreserve, ok_bind] at happend
  obtain ⟨src, hload, -⟩ := bind_eq_ok.mp happend
  unfold load at hload
  split_ifs at hload with hin
  omega

theorem insertAt_accepted (junk : ℕ → UInt8) {data : Bytes} {r : Bool}
    (hin : ¬ b.cap ≤ toSize index) (hinsert : b.insertAt junk index data l = .ok (b', r)) :
    r = true ∧ 0 ≤ index ∧ l ≤ data.length := by
  rw [insertAt, if_neg hin] at hinsert
  split_ifs at hinsert with hneg
  obtain ⟨b₁, -, hinsert⟩ := bind_eq_ok.mp hinsert
  obtain ⟨moved, -, hinsert⟩ := bind_eq_ok.mp hinsert
  obtain ⟨block, -, hinsert⟩ := bind_eq_ok.mp hinsert
  obtain ⟨src, hload, hinsert⟩ := bind_eq_ok.mp hinsert
  obtain ⟨block', -, hinsert⟩ := bind_eq_ok.mp hinsert
  have hr := congrArg Prod.snd (Except.ok.inj hinsert)
  unfold load at hload
  split_ifs at hload with hfit
  exact ⟨hr.symm, by omega, by omega⟩

theorem insertAt_needed (junk : ℕ → UInt8) (h : b.Sound) {data s : Bytes} (hint : IsInt index)
    (hinsert : b.insertAt junk index data l =
      .ok (b', decide (0 ≤ index ∧ index ≤ b.text.length)))
    (htext : b'.text = inserted b.text index s) :
    b.Outside index ∨ l = s.length ∧ b.Insertable index l := by
  have hbound := h.cap_lt
  have hlen := length_text h.len_le
  unfold IsInt at hint
  by_cases hfull : b.cap ≤ toSize index
  · -- not in the block: the list refuses it too
    left
    rw [insertAt_rejected junk hfull] at hinsert
    have hno : ¬ (0 ≤ index ∧ index ≤ b.text.length) :=
      of_decide_eq_false (congrArg Prod.snd (Except.ok.inj hinsert)).symm
    unfold Outside
    by_cases hneg : index < 0
    · exact Or.inl hneg
    · unfold toSize sizeBound at hfull
      right
      omega
  · right
    obtain ⟨hyes, hlow, hl⟩ := insertAt_accepted junk hfull hinsert
    rw [hyes] at hinsert
    have hplace := of_decide_eq_true hyes
    obtain ⟨i, rfl⟩ := Int.eq_ofNat_of_zero_le hlow
    obtain ⟨t, tail, rfl, ht, hsum⟩ := h.exists_parts
    rw [ht] at hlen htext hplace
    have hsize := lt_sizeBound hsum
    have hi : i ≤ t.length := by omega
    obtain ⟨hin, hroom⟩ := insertAt_room junk hsize (by omega) hinsert
    obtain ⟨tail', hresult, -⟩ := insertAt_eq junk hsize hi hl hin hroom
    rw [hresult] at hinsert
    obtain rfl := congrArg Prod.fst (Except.ok.inj hinsert)
    rw [text_mk, inserted, if_pos hplace, Int.toNat_natCast] at htext
    have hcount := congrArg List.length htext
    simp only [List.length_append, List.length_take, Nat.min_eq_left hl] at hcount
    refine ⟨by omega, hlow, hplace.2, ?_, ?_⟩
    · rw [cap_mk]
      omega
    · dsimp only
      omega

theorem del_outside {start l : ℤ} (h : b.Sound) (hstart : ¬ 0 > start) (hl : IsInt l)
    (hstop : start + l < 2 ^ 31) (hout : start + l < 0 ∨ b.len < start + l) :
    b.del start l = .ok (b, false) := by
  have hbound := h.cap_lt
  have hle := h.len_le
  unfold IsInt at hl
  have hlong : b.len < toSize (start + l) := by
    unfold toSize sizeBound
    omega
  rw [del, if_neg hstart, checkInt_of_lt (by omega) hstop, ok_bind, if_pos hlong]
  rfl

theorem del_does {start l : ℤ} (h : b.Sound) (hint : IsInt start ∧ IsInt l) (junk : ℕ → UInt8)
    (hfine : b.Fine (.del start l, junk)) : b.Does (.del start l, junk) := by
  have hlen := length_text h.len_le
  by_cases hstart : 0 > start
  · have hno : ¬ (0 ≤ start ∧ 0 ≤ l ∧ start + l ≤ b.text.length) := by omega
    have hdel : b.del start l = .ok (b, false) := if_pos hstart
    refine ⟨b, ?_, h, (if_neg hno).symm⟩
    simp only [act, reply, hdel, decide_eq_false hno]
    rfl
  · obtain ⟨hstop, hfine⟩ := hfine.resolve_left (by omega)
    by_cases hout : start + l < 0 ∨ b.len < start + l
    · have hno : ¬ (0 ≤ start ∧ 0 ≤ l ∧ start + l ≤ b.text.length) := by omega
      refine ⟨b, ?_, h, (if_neg hno).symm⟩
      simp only [act, reply, del_outside h hstart hint.2 hstop hout, decide_eq_false hno]
      rfl
    · obtain ⟨s, rfl⟩ := Int.eq_ofNat_of_zero_le (by omega : 0 ≤ start)
      obtain ⟨n, rfl⟩ := Int.eq_ofNat_of_zero_le (by omega : 0 ≤ l)
      obtain ⟨t, tail, rfl, ht, hbound⟩ := h.exists_parts
      rw [cap_mk] at hfine
      dsimp only at hout hfine
      obtain ⟨tail', hdel, hlen'⟩ := @del_eq t tail n s (by omega) (by omega) (by omega)
      have hyes : 0 ≤ (s : ℤ) ∧ 0 ≤ (n : ℤ) ∧ (s : ℤ) + n ≤ t.length := by omega
      have hsound : (t.take s ++ t.drop (s + n) ++ tail').length < 2 ^ 63 + 1024 := by
        rw [hlen', List.length_append]
        exact hbound
      have hsum : ((s : ℤ) + n).toNat = s + n := by omega
      refine ⟨_, ?_, sound_mk hsound, ?_⟩
      · simp only [act, reply, hdel, ht, decide_eq_true hyes]
        rfl
      · simp only [after, ht, if_pos hyes, text_mk, hsum, Int.toNat_natCast]

theorem store_fits {block block' src : Bytes} {pos : ℕ} (h : store block pos src = .ok block') :
    pos + src.length ≤ block.length ∧ block'.length = block.length := by
  unfold store at h
  split_ifs at h with hfit
  rw [← Except.ok.inj h]
  exact ⟨hfit, length_overwrite hfit⟩

theorem del_needed {start l : ℤ} (h : b.Sound) (hint : IsInt start ∧ IsInt l) (junk : ℕ → UInt8)
    (hdel : b.del start l = .ok (b', reply b.text (.del start l, junk))) :
    b.Fine (.del start l, junk) := by
  have hlen := length_text h.len_le
  unfold IsInt at hint
  by_cases hstart : 0 > start
  · exact Or.inl hstart
  · right
    rw [del, if_neg hstart] at hdel
    obtain ⟨stop, hcheck, hdel⟩ := bind_eq_ok.mp hdel
    obtain ⟨rfl, -, hstop⟩ := checkInt_ok hcheck
    refine ⟨hstop, ?_⟩
    by_cases hout : start + l < 0 ∨ b.len < start + l
    · omega
    · right; right
      have hin : ¬ b.len < toSize (start + l) := by
        unfold toSize sizeBound
        omega
      rw [if_neg hin] at hdel
      obtain ⟨src, -, hdel⟩ := bind_eq_ok.mp hdel
      obtain ⟨block, hstore, hdel⟩ := bind_eq_ok.mp hdel
      obtain ⟨block', hnul, hdel⟩ := bind_eq_ok.mp hdel
      have hreply := congrArg Prod.snd (Except.ok.inj hdel)
      have hplace : 0 ≤ start ∧ 0 ≤ l ∧ start + l ≤ b.text.length := of_decide_eq_true hreply.symm
      have hfit := store_fits hnul
      rw [(store_fits hstore).2, List.length_singleton] at hfit
      unfold cap
      omega

theorem delCharAt_does (h : b.Sound) (hint : IsInt index) (junk : ℕ → UInt8)
    (hfine : b.Fine (.delCharAt index, junk)) : b.Does (.delCharAt index, junk) := by
  have hlen := length_text h.len_le
  unfold IsInt at hint
  by_cases hrange : checkRange index b.len = true
  · obtain ⟨hlow, hlong⟩ := hfine.resolve_left (by simp [hrange])
    obtain ⟨i, rfl⟩ := Int.eq_ofNat_of_zero_le hlow
    have hi : i < b.len := by
      unfold checkRange at hrange
      simp only [decide_eq_true_eq] at hrange
      omega
    have hbound := h.cap_lt
    obtain ⟨t, tail, rfl, ht⟩ := exists_parts h.len_le
    obtain ⟨tail', hdel, hlen'⟩ := @delCharAt_eq t tail i hi hlong
    have hyes : 0 ≤ (i : ℤ) ∧ (i : ℤ) < t.length := by
      dsimp only at hi
      omega
    refine ⟨_, ?_, sound_mk (by rw [hlen']; exact hbound), ?_⟩
    · simp only [act, reply, hdel, ht, decide_eq_true hyes]
      rfl
    · simp only [after, ht, if_pos hyes, text_mk, Int.toNat_natCast]
  · have hno : ¬ (0 ≤ index ∧ index < b.text.length) := by
      unfold checkRange at hrange
      simp only [decide_eq_true_eq] at hrange
      omega
    refine ⟨b, ?_, h, (if_neg hno).symm⟩
    simp only [act, reply, delCharAt_rejected hrange, decide_eq_false hno]
    rfl

theorem delCharAt_needed (h : b.Sound) (hint : IsInt index) (junk : ℕ → UInt8)
    (hdel : b.delCharAt index = .ok (b', reply b.text (.delCharAt index, junk))) :
    b.Fine (.delCharAt index, junk) := by
  have hlen := length_text h.len_le
  unfold IsInt at hint
  by_cases hrange : checkRange index b.len = true
  · right
    have hreply : reply b.text (.delCharAt index, junk) = true := by
      rw [delCharAt, if_neg (by simp [hrange])] at hdel
      dsimp only at hdel
      split_ifs at hdel with hlast
      · obtain ⟨block, -, hdel⟩ := bind_eq_ok.mp hdel
        obtain ⟨block', -, hdel⟩ := bind_eq_ok.mp hdel
        exact (congrArg Prod.snd (Except.ok.inj hdel)).symm
      · obtain ⟨block, -, hdel⟩ := bind_eq_ok.mp hdel
        obtain ⟨block', -, hdel⟩ := bind_eq_ok.mp hdel
        exact (congrArg Prod.snd (Except.ok.inj hdel)).symm
    have hplace : 0 ≤ index ∧ index < b.text.length := of_decide_eq_true hreply
    obtain ⟨i, rfl⟩ := Int.eq_ofNat_of_zero_le hplace.1
    rw [hreply] at hdel
    exact ⟨hplace.1, delCharAt_lt (by omega) (by omega) hdel⟩
  · exact Or.inl hrange

theorem trim_does (h : b.Sound) (junk : ℕ → UInt8) (hfine : b.Fine (.trim, junk)) :
    b.Does (.trim, junk) := by
  obtain ⟨hleading, hrest, hroom⟩ := hfine
  have hbound := h.cap_lt
  obtain ⟨t, tail, rfl, ht⟩ := exists_parts h.len_le
  rw [ht] at hleading hrest hroom
  rw [cap_mk] at hroom
  obtain ⟨tail', htrim, hlen⟩ := trim_eq hleading hrest hroom
  refine ⟨_, ?_, sound_mk (by rw [hlen]; exact hbound), ?_⟩
  · simp only [act, reply, htrim]
    rfl
  · simp only [after, ht, text_mk]

theorem trim_needed (h : b.Sound) (junk : ℕ → UInt8) (htrim : b.trim = .ok b') :
    b.Fine (.trim, junk) := by
  obtain ⟨t, tail, rfl, ht⟩ := exists_parts h.len_le
  have hlt := trim_lt htrim
  simp only [Fine, ht, cap_mk]
  exact hlt

theorem reverse_does (h : b.Sound) (junk : ℕ → UInt8) (hfine : b.len < 2 ^ 32) :
    b.Does (.reverse, junk) := by
  obtain ⟨t, tail, rfl, ht, hbound⟩ := h.exists_parts
  have hlen : t.reverse.length = t.length := List.length_reverse
  have hsound : (t.reverse ++ tail).length < 2 ^ 63 + 1024 := by
    rw [List.length_append, hlen]
    exact hbound
  have hreverse := @reverse_eq t tail hfine
  have hbuffer : (⟨t.reverse ++ tail, t.length⟩ : StringBuffer) =
      ⟨t.reverse ++ tail, t.reverse.length⟩ := by rw [hlen]
  rw [hbuffer] at hreverse
  refine ⟨_, ?_, sound_mk hsound, ?_⟩
  · simp only [act, reply, hreverse]
    rfl
  · simp only [after, ht, text_mk]

theorem clear_does (h : b.Sound) (junk : ℕ → UInt8) : b.Does (.clear, junk) := by
  refine ⟨b.clear, rfl, ⟨Nat.zero_le _, h.cap_lt⟩, ?_⟩
  rw [text, clear, List.take_zero]
  rfl

variable {e : Edit × (ℕ → UInt8)}

theorem act_does (h : b.Sound) (hp : b.Possible e) (hf : b.Fine e) : b.Does e := by
  obtain ⟨e, junk⟩ := e
  have hlen := length_text h.len_le
  cases e with
  | append s =>
    obtain ⟨b', happend, hsound, htext⟩ := append_does junk h le_rfl hp
    rw [List.take_length] at htext
    refine ⟨b', ?_, hsound, htext⟩
    simp only [act, reply, happend]
    rfl
  | appendString view =>
    obtain ⟨hsize, hmemory⟩ := hp
    have hf : view.len = .ok view.size := hf
    obtain ⟨b', happend, hsound, htext⟩ := append_does junk h hsize (by omega)
    refine ⟨b', ?_, hsound, htext⟩
    simp only [act, reply, appendString, hf, ok_bind, happend]
    rfl
  | insertAt index s =>
    obtain ⟨hint, hmemory⟩ := hp
    rcases hf with hout | hin
    · obtain ⟨hinsert, hno⟩ := insertAt_outside junk h hint hout s s.length
      rw [← hlen] at hno
      refine ⟨b, ?_, h, (if_neg hno).symm⟩
      simp only [act, reply, hinsert, decide_eq_false hno]
      rfl
    · obtain ⟨b', hinsert, hsound, htext⟩ := inserted_does junk h hint le_rfl hmemory hin
      rw [List.take_length] at htext
      refine ⟨b', ?_, hsound, htext⟩
      simp only [act, reply, hinsert]
      rfl
  | insertStringAt index view =>
    obtain ⟨hint, hsize, hmemory⟩ := hp
    obtain ⟨l, hl, hout | ⟨rfl, hin⟩⟩ := hf
    · obtain ⟨hinsert, hno⟩ := insertAt_outside junk h hint hout view.data l
      rw [← hlen] at hno
      refine ⟨b, ?_, h, (if_neg hno).symm⟩
      simp only [act, reply, insertStringAt, hl, ok_bind, hinsert, decide_eq_false hno]
      rfl
    · obtain ⟨b', hinsert, hsound, htext⟩ := inserted_does junk h hint hsize (by omega) hin
      refine ⟨b', ?_, hsound, htext⟩
      simp only [act, reply, insertStringAt, hl, ok_bind, hinsert]
      rfl
  | del start l => exact del_does h hp junk hf
  | delCharAt index => exact delCharAt_does h hp junk hf
  | trim => exact trim_does h junk hf
  | reverse => exact reverse_does h junk hf
  | clear => exact clear_does h junk

theorem act_needed (h : b.Sound) (hp : b.Possible e) (hact : act b e = .ok (reply b.text e, b'))
    (htext : b'.text = after b.text e) : b.Fine e := by
  obtain ⟨e, junk⟩ := e
  cases e with
  | append s => trivial
  | appendString view =>
    obtain ⟨b₁, happend, hact⟩ := bind_eq_ok.mp hact
    obtain ⟨l, hl, happend⟩ := bind_eq_ok.mp happend
    obtain rfl := congrArg Prod.snd (Except.ok.inj hact)
    have hle := append_le junk h happend
    obtain ⟨b₂, happend', -, htext'⟩ := append_does junk h hle (by have := hp.2; omega)
    rw [happend] at happend'
    obtain rfl := Except.ok.inj happend'
    rw [htext] at htext'
    have hcount := congrArg List.length htext'
    simp only [after, SStringView.text, List.length_append, List.length_take, Nat.min_eq_left hle,
      Nat.min_eq_left hp.1] at hcount
    exact hl.trans (congrArg Except.ok (Nat.add_left_cancel hcount).symm)
  | insertAt index s =>
    obtain ⟨⟨b₁, r⟩, hinsert, hact⟩ := bind_eq_ok.mp hact
    obtain ⟨rfl, rfl⟩ := Prod.mk.inj (Except.ok.inj hact)
    exact (insertAt_needed junk h hp.1 hinsert htext).imp_right And.right
  | insertStringAt index view =>
    obtain ⟨⟨b₁, r⟩, hinsert, hact⟩ := bind_eq_ok.mp hact
    obtain ⟨l, hl, hinsert⟩ := bind_eq_ok.mp hinsert
    obtain ⟨rfl, rfl⟩ := Prod.mk.inj (Except.ok.inj hact)
    have hneeded := insertAt_needed junk h hp.1 hinsert htext
    rw [SStringView.text, List.length_take, Nat.min_eq_left hp.2.1] at hneeded
    exact ⟨l, hl, hneeded⟩
  | del start l =>
    obtain ⟨⟨b₁, r⟩, hdel, hact⟩ := bind_eq_ok.mp hact
    obtain ⟨rfl, rfl⟩ := Prod.mk.inj (Except.ok.inj hact)
    exact del_needed h hp junk hdel
  | delCharAt index =>
    obtain ⟨⟨b₁, r⟩, hdel, hact⟩ := bind_eq_ok.mp hact
    obtain ⟨rfl, rfl⟩ := Prod.mk.inj (Except.ok.inj hact)
    exact delCharAt_needed h hp junk hdel
  | trim =>
    obtain ⟨b₁, htrim, hact⟩ := bind_eq_ok.mp hact
    exact trim_needed h junk htrim
  | reverse =>
    obtain ⟨b₁, hreverse, hact⟩ := bind_eq_ok.mp hact
    exact reverse_lt hreverse
  | clear => trivial

/-- The runs in which every operation stays in the block are those along which every operation
answers as the list does, without an access behind the capacity, and leaves the text that the list
has, with a length that is within the capacity. -/
theorem fine_iff_list {b₀ : StringBuffer} (h : b₀.Sound) (es : List (Edit × (ℕ → UInt8))) :
    (∃ s, RunWhere (serve act) (fun s e => Possible s.1 e ∧ Fine s.1 e) (b₀, []) es s) ↔
      ∀ pre, pre <+: es → ∃ s,
        RunWhere (serve act) (fun s e => Possible s.1 e) (b₀, []) pre s ∧
          s.2 = answers reply after b₀.text pre ∧
          s.1.text = pre.foldl after b₀.text ∧ s.1.len ≤ s.1.cap := by
  refine @ serve_iff_forall_prefix _ _ _ _ _ act (fun b e => Possible b e ∧ Fine b e) Possible reply
    after b₀ b₀.text es (fun b t => b.Sound ∧ b.text = t) (fun b t => b.text = t ∧ b.len ≤ b.cap)
    ⟨h, rfl⟩ ?_ ?_ ?_
  · exact fun _ _ hrel => ⟨hrel.2, hrel.1.len_le⟩
  · rintro b _ e ⟨hsound, rfl⟩ ⟨hpossible, hfine⟩
    exact ⟨hpossible, act_does hsound hpossible hfine⟩
  · rintro b _ e b' ⟨hsound, rfl⟩ hpossible hact ⟨htext, -⟩
    exact ⟨hpossible, act_needed hsound hpossible hact htext⟩

theorem fine_iff_list_trim : (create 3).Sound ∧
    ((∃ s, RunWhere (serve act) (fun s e => Possible s.1 e ∧ Fine s.1 e) (create 3, [])
      [(.append [32, 97, 98], fun _ => 0), (.trim, fun _ => 0)] s) ↔
      ∀ pre, pre <+: [(.append [32, 97, 98], fun _ => 0), (.trim, fun _ => 0)] → ∃ s,
        RunWhere (serve act) (fun s e => Possible s.1 e) (create 3, []) pre s ∧
          s.2 = answers reply after (create 3).text pre ∧
          s.1.text = pre.foldl after (create 3).text ∧ s.1.len ≤ s.1.cap) :=
  ⟨sound_create (by norm_num), fine_iff_list (sound_create (by norm_num)) _⟩

theorem not_run {b₀ : StringBuffer} {es : List (Edit × (ℕ → UInt8))} {fault : Fault}
    (h : es.foldlM (serve act) (b₀, []) = .error fault) :
    ¬ ∃ s, RunWhere (serve act) (fun s e => Possible s.1 e) (b₀, []) es s := by
  rintro ⟨s, hrun⟩
  rw [hrun.foldlM_eq] at h
  cases h

/-- A text that fills its block is not trimmed without a write behind it, and no octet is inserted
near the end of a block of four; one is inserted behind the end of a text, and the removal of `-1`
octets makes a text longer. -/
theorem not_list_abc :
    (¬ ∃ s, RunWhere (serve act) (fun s e => Possible s.1 e) (create 3, [])
      [(.append [97, 98, 99], fun _ => 0), (.trim, fun _ => 0)] s) ∧
    (¬ ∃ s, RunWhere (serve act) (fun s e => Possible s.1 e) (create 4, [])
      [(.append [97, 98, 99], fun _ => 0), (.insertAt 2 [100], fun _ => 0)] s) ∧
    (∃ b, act ⟨[97, 98, 0, 0, 0, 0, 0, 0], 2⟩ (.insertAt 3 [99], fun _ => 0) = .ok (true, b) ∧
      b.text = [97, 98, 0] ∧ reply [97, 98] (.insertAt 3 [99], fun _ => 0) = false) ∧
    ∃ b, act ⟨[97, 98, 0, 0, 0, 0, 0, 0], 2⟩ (.del 1 (-1), fun _ => 0) = .ok (true, b) ∧
      b.text = [97, 97, 98] ∧ reply [97, 98] (.del 1 (-1), fun _ => 0) = false := by
  refine ⟨@not_run _ _ .overflow rfl, @not_run _ _ .overread rfl, ?_, ?_⟩
  · exact ⟨_, rfl, rfl, rfl⟩
  · exact ⟨_, rfl, rfl, rfl⟩

end StringBuffer
end Sese.Text
