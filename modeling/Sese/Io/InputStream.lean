import Sese.Foundation.Outcome
import Sese.Util.Bytes

/-!
# Input streams

`io::InputStream` and `streamMove`. A stream is given by its state and by what `read`
does to it; `Reads` says what the clients of a stream rely on: octets that are there are
read in order and are not read again, and a read at the end of the stream gives none. A stream
that is read group by group (`groupLoop`) gives groups of any lengths; one that fills every read
gives groups of one length, but for the last one.
-/
namespace Sese.Io

open Foundation

class InputStream (σ : Type) where
  read : σ → ℕ → Except Fault (Bytes × σ)
  left : σ → ℕ

variable {σ : Type} [InputStream σ]

/-- The loop of `streamMove`, which takes at most 4096 octets at a time. -/
def moveLoop : ℕ → Bytes → σ → ℕ → Except Fault (Bytes × σ)
  | 0, out, source, _ => return (out, source)
  | fuel + 1, out, source, size =>
    if size = 0 then return (out, source)
    else do
      let need := if size ≥ 4096 then 4096 else size
      let (got, source) ← InputStream.read source need
      if got.length ≠ need then return (out ++ got, source)
      else moveLoop fuel (out ++ got) source (size - need)

/-- `streamMove`: up to `size` octets are written to the end of `out`. Every pass but the
last one moves an octet, so that `size` passes are enough. -/
def streamMove (out : Bytes) (source : σ) (size : ℕ) : Except Fault (Bytes × σ) :=
  moveLoop size out source size

/-- In a state with `Holds s u` the octets `u` are still to be read; the states that a
read behind the end leads to are `Spent`. -/
structure Reads (Holds : σ → Bytes → Prop) (Spent : σ → Prop) : Prop where
  read_le {s : σ} {u : Bytes} {n : ℕ} : Holds s u → n ≤ u.length →
    ∃ s', InputStream.read s n = .ok (u.take n, s') ∧ Holds s' (u.drop n)
  read_end {s : σ} {n : ℕ} : Holds s [] → 0 < n →
    ∃ s', InputStream.read s n = .ok ([], s') ∧ Spent s'
  left_le {s : σ} {u : Bytes} : Holds s u → u.length ≤ InputStream.left s

/-- The same for a stream that may give less than is asked for: what is certain is a read of one
octet. -/
structure ReadsOctets (Holds : σ → Bytes → Prop) (Spent : σ → Prop) : Prop where
  read_one {s : σ} {b : UInt8} {u : Bytes} : Holds s (b :: u) →
    ∃ s', InputStream.read s 1 = .ok ([b], s') ∧ Holds s' u
  read_end {s : σ} : Holds s [] → ∃ s', InputStream.read s 1 = .ok ([], s') ∧ Spent s'

def StaysSpent (Spent : σ → Prop) : Prop :=
  ∀ (s : σ) (n : ℕ), Spent s → ∃ s', InputStream.read s n = .ok ([], s') ∧ Spent s'

namespace Reads

variable {Holds : σ → Bytes → Prop} {Spent : σ → Prop}

theorem read_one (h : Reads Holds Spent) {s : σ} {b : UInt8} {u : Bytes} (hs : Holds s (b :: u)) :
    ∃ s', InputStream.read s 1 = .ok ([b], s') ∧ Holds s' u :=
  h.read_le hs (by simp)

theorem octets (h : Reads Holds Spent) : ReadsOctets Holds Spent where
  read_one := h.read_one
  read_end := fun hs => h.read_end hs Nat.one_pos

theorem moveLoop_eq (h : Reads Holds Spent) (fuel : ℕ) (out : Bytes) {u : Bytes} {s : σ} {n : ℕ}
    (hs : Holds s u) (hn : n ≤ u.length) (hfuel : n ≤ fuel) :
    ∃ s', moveLoop fuel out s n = .ok (out ++ u.take n, s') ∧ Holds s' (u.drop n) := by
  induction fuel generalizing out u s n with
  | zero =>
    obtain rfl : n = 0 := by omega
    exact ⟨s, by simp [moveLoop], hs⟩
  | succ fuel ih =>
    by_cases h0 : n = 0
    · subst h0
      exact ⟨s, by simp [moveLoop], hs⟩
    · have hneed : (if n ≥ 4096 then 4096 else n) ≤ n := by split <;> omega
      have hpos : 0 < (if n ≥ 4096 then 4096 else n) := by split <;> omega
      simp only [moveLoop, if_neg h0]
      generalize (if n ≥ 4096 then 4096 else n) = need at hneed hpos ⊢
      obtain ⟨s₁, hread, hs₁⟩ := h.read_le hs (n := need) (by omega)
      obtain ⟨s', hmove, hs'⟩ := ih (out ++ u.take need) (n := n - need) hs₁
        (by rw [List.length_drop]; omega) (by omega)
      refine ⟨s', ?_, ?_⟩
      · have hlen : ¬ (u.take need).length ≠ need := by
          rw [List.length_take]
          omega
        rw [hread]
        change (if (u.take need).length ≠ need then _ else _) = _
        rw [if_neg hlen, hmove, List.append_assoc, ← List.take_add]
        congr 5
        omega
      · rw [List.drop_drop] at hs'
        convert hs' using 2
        omega

theorem streamMove_eq (h : Reads Holds Spent) (out : Bytes) {u : Bytes} {s : σ} {n : ℕ}
    (hs : Holds s u) (hn : n ≤ u.length) :
    ∃ s', streamMove out s n = .ok (out ++ u.take n, s') ∧ Holds s' (u.drop n) :=
  h.moveLoop_eq n out hs hn le_rfl

end Reads
section Groups

variable {α β : Type}

/-- `while ((len = src->read(buffer, n)) != 0)`: the body goes on with other variables, or
returns. -/
def groupLoop (n : ℕ) (body : β → Bytes → Except Fault (β ⊕ α)) (done : β → α) :
    ℕ → β → σ → Except Fault α
  | 0, _, _ => .error .endlessLoop
  | fuel + 1, b, src => do
    let (got, src) ← InputStream.read src n
    if got.length = 0 then return done b
    else
      match ← body b got with
      | .inl b => groupLoop n body done fuel b src
      | .inr a => return a

/-- The same for groups that are given. -/
def overGroups (body : β → Bytes → Except Fault (β ⊕ α)) (done : β → α) :
    β → List Bytes → Except Fault α
  | b, [] => .ok (done b)
  | b, got :: groups => do
    match ← body b got with
    | .inl b => overGroups body done b groups
    | .inr a => return a

/-- Reads of `n` octets give these groups, and then none. -/
inductive Gives (n : ℕ) : σ → List Bytes → Prop
  | nil {s s' : σ} : InputStream.read s n = .ok ([], s') → Gives n s []
  | cons {s s' : σ} {got : Bytes} {groups : List Bytes} : InputStream.read s n = .ok (got, s') →
      got ≠ [] → got.length ≤ n → Gives n s' groups → Gives n s (got :: groups)

theorem Gives.groupLoop_eq {n : ℕ} {s : σ} {groups : List Bytes} (h : Gives n s groups)
    (body : β → Bytes → Except Fault (β ⊕ α)) (done : β → α) (b : β) {fuel : ℕ}
    (hfuel : groups.length < fuel) :
    groupLoop n body done fuel b s = overGroups body done b groups := by
  induction h generalizing b fuel with
  | nil hread =>
    obtain ⟨fuel, rfl⟩ : ∃ k, fuel = k + 1 := ⟨fuel - 1, by omega⟩
    rw [groupLoop, hread]
    rfl
  | @cons s s' got groups hread hne hle _ ih =>
    obtain ⟨fuel, rfl⟩ : ∃ k, fuel = k + 1 := ⟨fuel - 1, by omega⟩
    have hlen : ¬ got.length = 0 := fun h => hne (List.eq_nil_of_length_eq_zero h)
    have hrest : groups.length < fuel := by
      rw [List.length_cons] at hfuel
      omega
    rw [groupLoop, hread, overGroups]
    simp only [ok_bind, if_neg hlen]
    cases hbody : body b got with
    | error fault => rfl
    | ok next =>
      cases next with
      | inl b' => exact ih b' hrest
      | inr a => rfl

theorem Gives.length_le {n : ℕ} {s : σ} {groups : List Bytes} (h : Gives n s groups) :
    groups.length ≤ groups.flatten.length := by
  induction h with
  | nil => exact le_rfl
  | cons _ hne _ _ ih =>
    have hpos := List.length_pos_of_ne_nil hne
    rw [List.flatten_cons, List.length_append, List.length_cons]
    omega

theorem Gives.length_mem_le {n : ℕ} {s : σ} {groups : List Bytes} (h : Gives n s groups) :
    ∀ group ∈ groups, group.length ≤ n := by
  induction h with
  | nil => simp
  | cons _ _ hle _ ih => exact List.forall_mem_cons.mpr ⟨hle, ih⟩

/-- The sequence in groups of `n`; the last one may be shorter. -/
def cut (n : ℕ) (u : Bytes) : List Bytes :=
  if u = [] ∨ n = 0 then [] else u.take n :: cut n (u.drop n)
termination_by u.length
decreasing_by
  rename_i h
  rw [not_or] at h
  have hpos := List.length_pos_of_ne_nil h.1
  simp
  omega

theorem cut_nil (n : ℕ) : cut n [] = [] := by
  rw [cut, if_pos (.inl rfl)]

theorem cut_append {n : ℕ} {group u : Bytes} (hne : group ≠ [])
    (h : group.length = n ∨ group.length ≤ n ∧ u = []) : cut n (group ++ u) = group :: cut n u := by
  have hpos := List.length_pos_of_ne_nil hne
  have hsome : ¬ (group ++ u = [] ∨ n = 0) := by
    rw [List.append_eq_nil_iff]
    rintro (⟨hnil, -⟩ | rfl)
    · exact hne hnil
    · omega
  rw [cut, if_neg hsome]
  rcases h with h | ⟨h, rfl⟩
  · rw [List.take_left' h, List.drop_left' h]
  · rw [List.append_nil, List.take_of_length_le h, List.drop_of_length_le h]

theorem cut_last {n : ℕ} {group : Bytes} (hne : group ≠ []) (h : group.length ≤ n) :
    cut n group = [group] := by
  have hcut := cut_append hne (.inr ⟨h, rfl⟩)
  rwa [List.append_nil, cut_nil] at hcut

structure Fills (Holds : σ → Bytes → Prop) : Prop where
  read {s : σ} {u : Bytes} (n : ℕ) : Holds s u →
    ∃ s', InputStream.read s n = .ok (u.take n, s') ∧ Holds s' (u.drop n)
  left_le {s : σ} {u : Bytes} : Holds s u → u.length ≤ InputStream.left s

theorem Fills.gives {Holds : σ → Bytes → Prop} (h : Fills Holds) {s : σ} {u : Bytes}
    (hs : Holds s u) {n : ℕ} (hn : 0 < n) : Gives n s (cut n u) := by
  induction hlen : u.length using Nat.strong_induction_on generalizing s u with
  | _ k ih =>
    subst hlen
    obtain ⟨s', hread, hs'⟩ := h.read n hs
    rw [cut]
    split_ifs with hend
    · rcases hend with rfl | rfl
      · exact .nil (by rw [hread, List.take_nil])
      · omega
    · rw [not_or] at hend
      have hpos := List.length_pos_of_ne_nil hend.1
      refine .cons hread ?_ (List.length_take_le n u) (ih (u.drop n).length ?_ hs' rfl)
      · intro hnil
        rw [List.take_eq_nil_iff] at hnil
        rcases hnil with rfl | hnil
        · omega
        · exact hend.1 hnil
      · rw [List.length_drop]
        omega

theorem flatten_cut {n : ℕ} (hn : 0 < n) (u : Bytes) : (cut n u).flatten = u := by
  fun_induction cut n u with
  | case1 u hend =>
    rcases hend with rfl | rfl
    · rfl
    · omega
  | case2 u _ ih => rw [List.flatten_cons, ih, List.take_append_drop]

/-- A loop over a source that fills its reads is one over the groups of what is there. -/
theorem Fills.groupLoop_eq {Holds : σ → Bytes → Prop} (h : Fills Holds) {s : σ} {u : Bytes}
    (hs : Holds s u) {n : ℕ} (hn : 0 < n) (body : β → Bytes → Except Fault (β ⊕ α)) (done : β → α)
    (b : β) : groupLoop n body done (InputStream.left s + 1) b s = overGroups body done b (cut n u) := by
  have hgives := h.gives hs hn
  have hlen := hgives.length_le
  have hleft := h.left_le hs
  rw [flatten_cut hn] at hlen
  exact hgives.groupLoop_eq body done b (by omega)

end Groups

/-- `readLine`: the line and what is left of the stream. A blank line is passed over; the line is
empty at the end of the stream only. -/
def readLine (builder : Bytes) : Bytes → Bytes × Bytes
  | [] => (builder, [])
  | ch :: input =>
    if ch = 13 then
      match input with
      | [] => (builder, [])
      | next :: rest =>
        if builder = [] then
          if next = 10 then readLine [] rest else readLine [] (next :: rest)
        else (builder, if next = 10 then rest else next :: rest)
    else if ch = 10 then if builder = [] then readLine [] input else (builder, input)
    else readLine (builder ++ [ch]) input

variable {line : Bytes}

theorem readLine_octets (hcr : (13 : UInt8) ∉ line) (hlf : (10 : UInt8) ∉ line) (builder rest : Bytes) :
    readLine builder (line ++ rest) = readLine (builder ++ line) rest := by
  induction line generalizing builder with
  | nil => simp
  | cons ch line ih =>
    rw [List.mem_cons, not_or] at hcr hlf
    rw [List.cons_append, readLine.eq_def]
    dsimp only
    rw [if_neg (Ne.symm hcr.1), if_neg (Ne.symm hlf.1), ih hcr.2 hlf.2, List.append_assoc]
    rfl

theorem readLine_blank (rest : Bytes) : readLine [] (10 :: rest) = readLine [] rest := by
  rw [readLine.eq_def]
  rfl

theorem readLine_line (hne : line ≠ []) (hcr : (13 : UInt8) ∉ line) (hlf : (10 : UInt8) ∉ line)
    (rest : Bytes) : readLine [] (line ++ 10 :: rest) = (line, rest) := by
  rw [readLine_octets hcr hlf, List.nil_append, readLine.eq_def]
  simp [hne]

end Sese.Io
