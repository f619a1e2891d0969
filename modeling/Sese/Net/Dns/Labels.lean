import Sese.Net.Dns.NameWalks
import Sese.Net.Dns.PackageIndex

/-!
# Names as lists of labels

A valid name is the labels of a nonempty list with dots between them. In a datagram it is
spelled by its labels with a zero behind them, or by some of them with a pointer behind
them that leads to the spelling of the others.
-/
namespace Sese

open Foundation

namespace DnsPackage

/-- A label of a name: 1 to 63 octets, none of them NUL or a dot. -/
structure Label (l : Bytes) : Prop where
  pos : 0 < l.length
  le : l.length ≤ 63
  nul : (0 : UInt8) ∉ l
  dot : (46 : UInt8) ∉ l

def joinDots : List Bytes → Bytes
  | [] => []
  | [l] => l
  | l :: l' :: ls => l ++ (dot ++ joinDots (l' :: ls))

structure Spells (ls : List Bytes) (name : Bytes) : Prop where
  ne_nil : ls ≠ []
  label : ∀ l ∈ ls, Label l
  name : name = joinDots ls

def ValidName (name : Bytes) : Prop := ∃ ls, Spells ls name

theorem joinDots_cons {l : Bytes} {ls : List Bytes} (h : ls ≠ []) :
    joinDots (l :: ls) = l ++ (dot ++ joinDots ls) := by
  cases ls with
  | nil => exact absurd rfl h
  | cons l' ls => rfl

@[simp] theorem labelBytes_nil : labelBytes [] = [] := rfl

@[simp] theorem labelBytes_cons (l : Bytes) (ls : List Bytes) :
    labelBytes (l :: ls) = .ofNat l.length :: (l ++ labelBytes ls) := rfl

@[simp] theorem labelBytes_append (ls ls' : List Bytes) :
    labelBytes (ls ++ ls') = labelBytes ls ++ labelBytes ls' := List.flatMap_append

theorem length_joinDots {ls : List Bytes} (h : ls ≠ []) :
    (joinDots ls).length + 1 = (labelBytes ls).length := by
  induction ls with
  | nil => exact absurd rfl h
  | cons l ls ih =>
    cases ls with
    | nil => simp [joinDots]
    | cons l' ls =>
      rw [joinDots_cons (List.cons_ne_nil _ _), labelBytes_cons]
      have := ih (List.cons_ne_nil _ _)
      simp only [dot, List.length_append, List.length_cons, List.length_nil] at this ⊢
      omega

theorem Spells.name_ne_nil {ls : List Bytes} {name : Bytes} (h : Spells ls name) : name ≠ [] := by
  rw [h.name]
  intro hnil
  have hlen := length_joinDots h.ne_nil
  obtain ⟨l, ls, rfl⟩ := List.exists_cons_of_ne_nil h.ne_nil
  have hpos := (h.label l List.mem_cons_self).pos
  rw [hnil] at hlen
  simp only [labelBytes_cons, List.length_cons, List.length_append, List.length_nil] at hlen
  omega

theorem splitLoop_dot {l rest piece : Bytes} (h : (46 : UInt8) ∉ l) :
    splitLoop dot 0 piece (l ++ (dot ++ rest)) = (piece.reverse ++ l) :: splitLoop dot 0 [] rest := by
  induction l generalizing piece with
  | nil => simp [splitLoop, dot, List.isPrefixOf]
  | cons b l ih =>
    rw [List.mem_cons, not_or] at h
    have hb : ¬ (dot.isPrefixOf (b :: (l ++ (dot ++ rest))) = true) := by
      simp [dot, List.isPrefixOf, h.1]
    rw [List.cons_append, splitLoop, if_neg hb, ih h.2]
    simp

theorem splitLoop_last {l piece : Bytes} (h : (46 : UInt8) ∉ l) (hpos : 0 < (piece.reverse ++ l).length)
    (hnul : (0 : UInt8) ∉ piece.reverse ++ l) :
    splitLoop dot 0 piece l = [piece.reverse ++ l] := by
  induction l generalizing piece with
  | nil =>
    rw [List.append_nil] at hpos hnul
    have hne : piece.isEmpty = false := by
      cases piece with
      | nil => simp at hpos
      | cons b piece => rfl
    rw [splitLoop, hne]
    simp [cstr_eq_self hnul]
  | cons b l ih =>
    rw [List.mem_cons, not_or] at h
    have hb : ¬ (dot.isPrefixOf (b :: l) = true) := by
      simp [dot, List.isPrefixOf, h.1]
    have happend : piece.reverse ++ b :: l = (b :: piece).reverse ++ l := by simp
    rw [splitLoop, if_neg hb, ih h.2 (by rwa [← happend]) (by rwa [← happend]), happend]

theorem Spells.split_eq {ls : List Bytes} {name : Bytes} (h : Spells ls name) :
    split name dot = ls := by
  rw [h.name, split]
  have hlabel := h.label
  have hne := h.ne_nil
  clear h
  induction ls with
  | nil => exact absurd rfl hne
  | cons l ls ih =>
    have hl := hlabel l List.mem_cons_self
    cases ls with
    | nil =>
      rw [joinDots]
      exact splitLoop_last hl.dot (by simpa using hl.pos) (by simpa using hl.nul)
    | cons l' ls =>
      rw [joinDots_cons (List.cons_ne_nil _ _), splitLoop_dot hl.dot,
        ih (fun l hl => hlabel l (List.mem_cons_of_mem _ hl)) (List.cons_ne_nil _ _)]
      rfl

/-- A name has only one list of labels. -/
theorem Spells.unique {ls ls' : List Bytes} {name : Bytes} (h : Spells ls name)
    (h' : Spells ls' name) : ls = ls' := by
  rw [← h.split_eq, h'.split_eq]

section

variable {m : ℕ → UInt8} {length : ℕ} {octet : Octets}

theorem wordsLoop_succ {n offset pos : ℕ} {first : Bool} {text : Bytes}
    (h : wordsLoop octet length n offset pos first text ≠ .error .endlessLoop) :
    wordsLoop octet length (n + 1) offset pos first text =
      wordsLoop octet length n offset pos first text := by
  induction n generalizing offset pos first text with
  | zero => exact absurd rfl h
  | succ n ih =>
    cases hb : octet (offset + pos) with
    | error x => rw [wordsLoop, wordsLoop, hb, error_bind, error_bind]
    | ok b =>
      by_cases hz : b = 0
      · subst hz
        rw [wordsLoop_terminator hb, wordsLoop_terminator hb]
      by_cases hp : isPointer b
      · cases hb' : octet (offset + pos + 1) with
        | error x =>
          rw [wordsLoop, wordsLoop, hb, ok_bind, ok_bind, if_neg hz, if_neg hz, if_pos hp, if_pos hp,
            hb', error_bind, error_bind]
        | ok b' =>
          by_cases ht : length < pointerTarget b b'
          · rw [wordsLoop_pointer_refused hb hp hb' ht, wordsLoop_pointer_refused hb hp hb' ht]
          · rw [wordsLoop_pointer hb hp hb' (not_lt.mp ht)] at h ⊢
            rw [wordsLoop_pointer hb hp hb' (not_lt.mp ht), ih]
            intro hsub
            rw [hsub, error_bind] at h
            exact h rfl
      · by_cases hl : length < offset + b.toNat + 1
        · rw [wordsLoop_label_refused hb hp hz hl, wordsLoop_label_refused hb hp hz hl]
        · rw [wordsLoop_label hb hp hz (not_lt.mp hl)] at h ⊢
          rw [wordsLoop_label hb hp hz (not_lt.mp hl)]
          cases hlabel : readBytes octet (offset + pos + 1) b.toNat with
          | error x => rfl
          | ok label =>
            rw [hlabel, ok_bind] at h
            rw [ok_bind, ok_bind, ih h]

theorem wordsLoop_mono {n k offset pos : ℕ} {first : Bool} {text : Bytes}
    (h : wordsLoop octet length n offset pos first text ≠ .error .endlessLoop) :
    wordsLoop octet length (n + k) offset pos first text =
      wordsLoop octet length n offset pos first text := by
  induction k with
  | zero => rfl
  | succ k ih => rw [← Nat.add_assoc, wordsLoop_succ (by rwa [ih]), ih]

/-- The name at `offset` is read as `text`, up to `e`. -/
def ReadAs (octet : Octets) (length offset : ℕ) (text : Bytes) (e : ℕ) : Prop :=
  ∃ n, wordsLoop octet length n offset 0 true [] = .ok (text, e)

/-- The fuel of `decodeWords` is enough for what any fuel is enough for. -/
theorem ReadAs.decodeWords {offset e : ℕ} {text : Bytes} {x : Fault} (h : Shows octet m length x)
    (hx : x ≠ .endlessLoop) (hr : ReadAs octet length offset text e) :
    decodeWords octet length offset = .ok (text, e) := by
  obtain ⟨n, hn⟩ := hr
  have hmono : wordsLoop octet length (n + nameFuel) offset 0 true [] = .ok (text, e) := by
    rw [wordsLoop_mono (by rw [hn]; simp), hn]
  by_cases hend : DnsPackage.decodeWords octet length offset = .error .endlessLoop
  · have hnone := (orbit_eq_none_iff (places offset) leads_mem_places (card_places_le offset)).mpr
      (neverReturns_of_orbit_eq_none (h.orbit_of_ok hn))
    exact absurd hnone (h.orbit_of_endless hx hend)
  · rw [Nat.add_comm] at hmono
    exact (wordsLoop_mono hend).symm.trans hmono

end

def datagram (W : Bytes) : Octets := within (fun i => W.getD i 0) W.length

theorem datagram_of_getElem? {W : Bytes} {i : ℕ} {b : UInt8} (h : W[i]? = some b) :
    datagram W i = .ok b := by
  have hi : i < W.length := (List.getElem?_eq_some_iff.mp h).1
  rw [datagram, within_of_lt hi, List.getD_eq_getElem?_getD, h, Option.getD_some]

theorem datagram_append {pre post : Bytes} {b : UInt8} {i : ℕ} (hi : i = pre.length) :
    datagram (pre ++ b :: post) i = .ok b := by
  apply datagram_of_getElem?
  rw [hi, List.getElem?_append_right (Nat.le_refl _), Nat.sub_self, List.getElem?_cons_zero]

theorem readBytes_append {pre block post : Bytes} {i n : ℕ} (hi : i = pre.length)
    (hn : n = block.length) : readBytes (datagram (pre ++ (block ++ post))) i n = .ok block := by
  subst hi hn
  induction block generalizing pre with
  | nil => rfl
  | cons b block ih =>
    rw [List.length_cons, readBytes, List.cons_append, datagram_append rfl, ok_bind]
    have hassoc : pre ++ b :: (block ++ post) = (pre ++ [b]) ++ (block ++ post) := by simp
    have hlen : pre.length + 1 = (pre ++ [b]).length := by simp
    rw [hassoc, hlen, ih, ok_bind]

theorem shows_datagram (W : Bytes) :
    Shows (datagram W) (fun i => W.getD i 0) W.length .overread := shows_within

theorem ReadAs.decode_datagram {W : Bytes} {offset e : ℕ} {text : Bytes}
    (h : ReadAs (datagram W) W.length offset text e) :
    DnsPackage.decodeWords (datagram W) W.length offset = .ok (text, e) :=
  h.decodeWords (shows_datagram W) (by decide)

theorem Label.head {l : Bytes} (h : Label l) :
    ¬ isPointer (.ofNat l.length) ∧ UInt8.ofNat l.length ≠ 0 ∧
      (UInt8.ofNat l.length).toNat = l.length := by
  have hall : ∀ n < 64, 0 < n → isPointer (.ofNat n) = false ∧ UInt8.ofNat n ≠ 0 ∧
      (UInt8.ofNat n).toNat = n := by
    decide
  have hpos := h.pos
  have hle := h.le
  simpa using hall l.length (by omega) hpos

def withLabels (first : Bool) (text : Bytes) : List Bytes → Bytes
  | [] => text
  | l :: ls => withLabels false (dotted first text ++ l) ls

theorem withLabels_cons_false (text l : Bytes) (ls : List Bytes) :
    withLabels false text (l :: ls) = text ++ (dot ++ joinDots (l :: ls)) := by
  induction ls generalizing text l with
  | nil => simp [withLabels, dotted, joinDots, dot]
  | cons l' ls ih =>
    rw [withLabels, ih, joinDots_cons (List.cons_ne_nil _ _)]
    simp [dotted, dot]

theorem withLabels_true {ls : List Bytes} : withLabels true [] ls = joinDots ls := by
  cases ls with
  | nil => rfl
  | cons l ls =>
    rw [withLabels]
    cases ls with
    | nil => rfl
    | cons l' ls =>
      rw [withLabels_cons_false, joinDots_cons (List.cons_ne_nil _ _)]
      rfl

theorem wordsLoop_labels {ls : List Bytes} (hls : ∀ l ∈ ls, Label l) {pre post : Bytes}
    {n offset pos : ℕ} {first : Bool} {text : Bytes} (hpos : offset + pos = pre.length)
    (hlen : (pre ++ (labelBytes ls ++ post)).length < 16384) :
    wordsLoop (datagram (pre ++ (labelBytes ls ++ post))) (pre ++ (labelBytes ls ++ post)).length
        (n + ls.length) offset pos first text =
      wordsLoop (datagram (pre ++ (labelBytes ls ++ post))) (pre ++ (labelBytes ls ++ post)).length
        n offset (pos + (labelBytes ls).length) (first && ls.isEmpty) (withLabels first text ls) := by
  induction ls generalizing pre pos first text with
  | nil => simp [withLabels]
  | cons l ls ih =>
    obtain ⟨hpointer, hzero, hnat⟩ := (hls l List.mem_cons_self).head
    have hcat : pre ++ (labelBytes (l :: ls) ++ post) =
        (pre ++ .ofNat l.length :: l) ++ (labelBytes ls ++ post) := by
      simp
    have hhead : datagram (pre ++ (labelBytes (l :: ls) ++ post)) (offset + pos) =
        .ok (.ofNat l.length) := by
      rw [labelBytes_cons, List.cons_append]
      exact datagram_append hpos
    have hword : readBytes (datagram (pre ++ (labelBytes (l :: ls) ++ post))) (offset + pos + 1)
        (UInt8.ofNat l.length).toNat = .ok l := by
      have hassoc : pre ++ (labelBytes (l :: ls) ++ post) =
          (pre ++ [.ofNat l.length]) ++ (l ++ (labelBytes ls ++ post)) := by
        simp
      rw [hassoc]
      exact readBytes_append (by simp [hpos]) hnat
    have htotal : (pre ++ (labelBytes (l :: ls) ++ post)).length =
        pre.length + (1 + l.length) + (labelBytes ls ++ post).length := by
      rw [hcat, List.length_append, List.length_append, List.length_cons]
      omega
    rw [List.length_cons, ← Nat.add_assoc, wordsLoop_label hhead hpointer hzero
      (by rw [hnat]; omega), hword, ok_bind, hnat, Nat.mod_eq_of_lt (by omega)]
    rw [hcat] at hlen ⊢
    rw [ih (fun l hl => hls l (List.mem_cons_of_mem _ hl)) (by simp; omega) hlen]
    congr 1
    · simp
      omega
    · simp

theorem readAs_literal {ls : List Bytes} (hls : ∀ l ∈ ls, Label l) {pre post : Bytes}
    (hlen : (pre ++ (labelBytes ls ++ 0 :: post)).length < 16384) :
    ReadAs (datagram (pre ++ (labelBytes ls ++ 0 :: post)))
      (pre ++ (labelBytes ls ++ 0 :: post)).length pre.length (joinDots ls)
      (pre.length + (labelBytes ls).length) := by
  refine ⟨1 + ls.length, ?_⟩
  rw [wordsLoop_labels hls (Nat.add_zero _) hlen, Nat.zero_add, withLabels_true]
  apply wordsLoop_terminator
  rw [← List.append_assoc]
  exact datagram_append (by simp)

theorem toNat_createPointer {p : UInt16} (h : p.toNat < 16384) :
    (Index.createPointer p).toNat = 49152 + p.toNat := by
  have hand : p.toNat &&& 16383 = p.toNat := by
    rw [show 16383 = 2 ^ 14 - 1 by rfl, Nat.and_two_pow_sub_one_eq_mod, Nat.mod_eq_of_lt h]
  rw [Index.createPointer, UInt16.toNat_or, UInt16.toNat_and]
  change 49152 ||| (p.toNat &&& 16383) = _
  rw [hand]
  have hlt : p.toNat < 2 ^ 14 := h
  exact (Nat.two_pow_add_eq_or_of_lt hlt 3).symm

theorem pointer_octets {p : UInt16} (h : p.toNat < 16384) :
    ∃ b b', toBigEndian16 (Index.createPointer p).toNat = [b, b'] ∧ isPointer b ∧
      pointerTarget b b' = p.toNat := by
  refine ⟨_, _, rfl, ?_, ?_⟩
  · have hall : ∀ n < 64, isPointer (.ofNat (192 + n)) = true := by
      decide
    have hdiv : (49152 + p.toNat) / 2 ^ 8 = 192 + p.toNat / 256 := by omega
    rw [toNat_createPointer h, hdiv]
    exact hall _ (by omega)
  · rw [toNat_createPointer h, pointerTarget, show 0x3FFF = 2 ^ 14 - 1 by rfl,
      Nat.and_two_pow_sub_one_eq_mod]
    simp only [fromBigEndian, List.foldl_cons, List.foldl_nil, UInt8.toNat_ofNat']
    omega

theorem joinDots_append {ls ls' : List Bytes} (h : ls ≠ []) (h' : ls' ≠ []) :
    joinDots (ls ++ ls') = joinDots ls ++ (dot ++ joinDots ls') := by
  induction ls with
  | nil => exact absurd rfl h
  | cons l ls ih =>
    cases ls with
    | nil => exact joinDots_cons h'
    | cons l₂ ls =>
      rw [List.cons_append, joinDots_cons (by simp), ih (List.cons_ne_nil _ _),
        joinDots_cons (List.cons_ne_nil _ _)]
      simp

theorem readAs_pointer {ls ls' : List Bytes} (hls : ∀ l ∈ ls, Label l) {p : UInt16}
    (hp : p.toNat < 16384) (hne : ls' ≠ []) (hjoin : joinDots ls' ≠ []) {pre post W : Bytes} {e : ℕ}
    (hW : W = pre ++ (labelBytes ls ++ (toBigEndian16 (Index.createPointer p).toNat ++ post)))
    (hlen : W.length < 16384) (hle : p.toNat ≤ W.length)
    (hsub : ReadAs (datagram W) W.length p.toNat (joinDots ls') e) :
    ReadAs (datagram W) W.length pre.length (joinDots (ls ++ ls'))
      (pre.length + (labelBytes ls).length + 2) := by
  obtain ⟨b, b', hoctets, hb, htarget⟩ := pointer_octets hp
  obtain ⟨n, hn⟩ := hsub
  rw [hoctets] at hW
  have hhead : datagram W (pre.length + (0 + (labelBytes ls).length)) = .ok b := by
    rw [hW, ← List.append_assoc]
    exact datagram_append (by simp)
  have hsecond : datagram W (pre.length + (0 + (labelBytes ls).length) + 1) = .ok b' := by
    have hassoc : W = (pre ++ (labelBytes ls ++ [b])) ++ b' :: post := by
      rw [hW]
      simp
    rw [hassoc]
    exact datagram_append (by simp [Nat.add_assoc])
  have hreach : pointerTarget b b' ≤ W.length := htarget ▸ hle
  have hloop : wordsLoop (datagram W) W.length (n + 1) pre.length (0 + (labelBytes ls).length)
      (true && ls.isEmpty) (withLabels true [] ls) = _ :=
    wordsLoop_pointer hhead hb hsecond hreach
  rw [htarget, hn, ok_bind, followed, if_neg hjoin] at hloop
  refine ⟨n + 1 + ls.length, ?_⟩
  have htotal : pre.length + (labelBytes ls).length + 2 ≤ W.length := by
    rw [hW]
    simp
    omega
  have hlabels : wordsLoop (datagram W) W.length (n + 1 + ls.length) pre.length 0 true [] =
      wordsLoop (datagram W) W.length (n + 1) pre.length (0 + (labelBytes ls).length)
        (true && ls.isEmpty) (withLabels true [] ls) := by
    rw [hW]
    exact wordsLoop_labels hls (Nat.add_zero _) (hW ▸ hlen)
  rw [hlabels, hloop, Nat.mod_eq_of_lt (by omega), withLabels_true]
  congr 2
  · cases ls with
    | nil => rfl
    | cons l ls =>
      rw [joinDots_append (List.cons_ne_nil _ _) hne]
      simp [dotted, dot]
  · omega

end DnsPackage

end Sese
