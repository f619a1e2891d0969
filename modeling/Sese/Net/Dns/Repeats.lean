import Sese.Foundation.Runs
import Sese.Net.Dns.Capacity
import Sese.Net.Dns.RoundTrip

/-!
# Encoding again with the same index

The positions that a call records stay in the index, since `clearPos` clears copies of the entries.
So the encodings of a package with one index are the same as long as none of them begins with a
recorded position, and one that does writes a pointer to where the call before had the name.
-/
namespace Sese

open Foundation

namespace DnsPackage

open Index

/-- A call of `encode`; with a length of 0 it is for the size. -/
structure Call where
  buffer : Bytes
  length : ℕ

def encodeStep (pkg : DnsPackage) (index : Index) (call : Call) : Except Fault Index := do
  let (_, _, _, index) ← pkg.encode call.buffer call.length index
  return index

/-- The calls with one index, each with what is in the index when it begins. -/
def history (pkg : DnsPackage) : Index → List Call → List (Index × Call)
  | _, [] => []
  | index, call :: calls =>
    (index, call) :: match encodeStep pkg index call with
      | .ok index => history pkg index calls
      | .error _ => []

/-- The octets that a call writes into a buffer with room for the package. The length that `encode`
gives back leaves out the last section. -/
def Encodes (pkg : DnsPackage) (index : Index) (call : Call) (octets : Bytes) : Prop :=
  ∃ W n buffer index', wire pkg index = .ok W ∧ W.length ≤ call.length ∧
    call.length ≤ call.buffer.length ∧ call.length < 2 ^ 64 ∧
    pkg.encode call.buffer call.length index = .ok (true, n, buffer, index') ∧ octets = buffer.take W.length

/-- The entry that the pointer at the end of a name is to. -/
def pointsTo (index : Index) (name : Bytes) : Option CompressIndex :=
  (index.compress_mapping.lookup name).bind fun numbers =>
    (index.getSortedIndexes numbers).find? fun e => e.pos ≠ 0

/-- One of these entries of the package has a pointer to `item` at the end of its name. -/
inductive Points : List Entry → ℕ → Index → CompressIndex → Prop
  | name {e : Entry} {es : List Entry} {base : ℕ} {index : Index} {item : CompressIndex} :
    pointsTo index e.name = some item → Points (e :: es) base index item
  | behind {e : Entry} {es : List Entry} {base : ℕ} {index index' : Index} {item : CompressIndex}
    {octets : Bytes} : nameBytes index e.name base = .ok (octets, index') →
    Points es (base + octets.length + e.fields.length) index' item → Points (e :: es) base index item

def Unrecorded (index : Index) : Prop := ∀ e ∈ index.compress_index, e.pos = 0

/-- The encodings of a run are all the same, and none has a pointer to an entry as it was in the index
when the call began. -/
structure Repeatable (pkg : DnsPackage) (calls : List Call) : Prop where
  same : ∀ s ∈ history pkg (buildIndex pkg) calls, ∀ s' ∈ history pkg (buildIndex pkg) calls,
    ∀ octets octets', Encodes pkg s.1 s.2 octets → Encodes pkg s'.1 s'.2 octets' → octets = octets'
  pointers : ∀ s ∈ history pkg (buildIndex pkg) calls, ∀ octets, Encodes pkg s.1 s.2 octets →
    ∀ item, Points pkg.entries.flatten 12 s.1 item → item ∉ s.1.compress_index

theorem Points.pos_ne_zero {es : List Entry} {base : ℕ} {index : Index} {item : CompressIndex}
    (h : Points es base index item) : item.pos ≠ 0 := by
  induction h with
  | name hitem =>
    obtain ⟨numbers, -, hitem⟩ := Option.bind_eq_some_iff.mp hitem
    simpa using List.find?_some hitem
  | behind _ _ ih => exact ih

def Moved (index index' : Index) : Prop := ∃ place, index' = index.placed place

theorem Moved.eq_of_unrecorded {index index' : Index} (h : Moved index index') (hf : index.Fresh)
    (hu : Unrecorded index') : index' = index := by
  obtain ⟨place, rfl⟩ := h
  have hplace : index.placed place = index.placed fun _ => 0 := by
    rw [placed, placed]
    congr 1
    apply List.map_congr_left
    intro e he
    have hpos := hu { e with pos := place e.name } (List.mem_map_of_mem he)
    rw [show place e.name = 0 from hpos]
  rw [hplace, placed_zero hf]

theorem updatePosLoop_moved (fullname : Bytes) (offset : UInt16) (items : List CompressIndex)
    {index index' : Index} (h : Moved index index') :
    Moved index (updatePosLoop fullname offset items index') := by
  induction items generalizing index' with
  | nil => exact h
  | cons item items ih =>
    rw [updatePosLoop]
    split_ifs
    · exact h
    · obtain ⟨place, rfl⟩ := h
      apply ih
      exact ⟨_, setPos_placed _ _ _ _⟩

theorem nameBytes_moved {index index' index'' : Index} {name octets : Bytes} {base : ℕ}
    (h : Moved index index') (hname : nameBytes index' name base = .ok (octets, index'')) :
    Moved index index'' := by
  rw [nameBytes] at hname
  split at hname
  · rw [encodeWords] at hname
    obtain ⟨text, -, hname⟩ := bind_eq_ok.mp hname
    cases hname
    rw [updatePos.eq_def]
    split
    · exact h
    · exact updatePosLoop_moved _ _ _ h
  · cases hname
    exact h

theorem encodeEntries_moved {α : Type} {name : α → Bytes} {size : α → ℕ}
    {fields : α → Except Fault Bytes} {base max : ℕ} {items : List α} {out out' : Sink}
    {index index' index'' : Index} {encoded : Bool} (h : Moved index index')
    (hentries : encodeEntries name size fields base max items out index' = .ok (encoded, out', index'')) :
    Moved index index'' := by
  induction items generalizing out index' with
  | nil =>
    cases hentries
    exact h
  | cons item items ih =>
    rw [encodeEntries] at hentries
    obtain ⟨⟨octets, index₁⟩, hname, hentries⟩ := bind_eq_ok.mp hentries
    have hmoved := nameBytes_moved h hname
    obtain ⟨⟨room, out₁⟩, -, hentries⟩ := bind_eq_ok.mp hentries
    cases room with
    | false =>
      cases hentries
      exact hmoved
    | true =>
      dsimp only at hentries
      rw [if_pos rfl] at hentries
      obtain ⟨⟨room, out₂⟩, -, hentries⟩ := bind_eq_ok.mp hentries
      cases room with
      | false =>
        cases hentries
        exact hmoved
      | true => exact ih hmoved hentries

def Moves (s : Section) : Prop :=
  ∀ {base max : ℕ} {buffer : Bytes} {index index' index'' : Index} {encoded : Bool} {out : Sink},
    Moved index index' → s base max buffer index' = .ok (encoded, out, index'') → Moved index index''

theorem encodeSections_moved {max : ℕ} {ss : List Section} (hss : ∀ s ∈ ss, Moves s) {length n : ℕ}
    {buffer buffer' : Bytes} {index index' index'' : Index} {encoded : Bool} (h : Moved index index')
    (hsections : encodeSections max ss length buffer index' = .ok (encoded, n, buffer', index'')) :
    Moved index index'' := by
  induction ss generalizing length buffer index' with
  | nil =>
    cases hsections
    exact h
  | cons s ss ih =>
    rw [encodeSections] at hsections
    obtain ⟨⟨encoded₁, out, index₁⟩, hthis, hsections⟩ := bind_eq_ok.mp hsections
    have hmoved := hss s List.mem_cons_self h hthis
    cases encoded₁ with
    | false =>
      cases hsections
      exact hmoved
    | true => exact ih (fun s hs => hss s (List.mem_cons_of_mem _ hs)) hmoved hsections

theorem encodeBody_moved {pkg : DnsPackage} {max n : ℕ} {buffer buffer' : Bytes}
    {index index' index'' : Index} {encoded : Bool} (h : Moved index index')
    (hbody : encodeBody pkg max buffer index' = .ok (encoded, n, buffer', index'')) :
    Moved index index'' := by
  have hquestions (questions : List Question) : Moves (encodeQuestions questions) := encodeEntries_moved
  have hanswers (answers : List Answer) : Moves (encodeAnswers answers) := encodeEntries_moved
  rw [encodeBody] at hbody
  obtain ⟨⟨encoded₁, length, buffer₁, index₁⟩, hsections, hbody⟩ := bind_eq_ok.mp hbody
  have hmoved : Moved index index₁ := by
    apply encodeSections_moved _ h hsections
    simp only [sections, List.forall_mem_cons]
    exact ⟨hquestions _, hanswers _, hanswers _, List.forall_mem_nil _⟩
  cases encoded₁ with
  | false =>
    cases hbody
    exact hmoved
  | true =>
    dsimp only at hbody
    rw [if_pos rfl] at hbody
    obtain ⟨⟨encoded₂, out, index₂⟩, hlast, hbody⟩ := bind_eq_ok.mp hbody
    cases hbody
    exact hanswers _ hmoved hlast

theorem encodeStep_moved {pkg : DnsPackage} {index index' index'' : Index} {call : Call}
    (h : Moved index index') (hstep : encodeStep pkg index' call = .ok index'') : Moved index index'' := by
  rw [encodeStep] at hstep
  obtain ⟨⟨encoded, n, buffer, index₁⟩, hencode, hstep⟩ := bind_eq_ok.mp hstep
  cases hstep
  rw [encode] at hencode
  dsimp only [clearPos] at hencode
  split_ifs at hencode
  · exact encodeBody_moved h hencode
  · cases hencode
    exact h
  · obtain ⟨buffer₁, -, hencode⟩ := bind_eq_ok.mp hencode
    exact encodeBody_moved h hencode

theorem exists_run_of_mem_history {pkg : DnsPackage} {index : Index} {calls : List Call}
    {s : Index × Call} (hs : s ∈ history pkg index calls) :
    ∃ before, RunWhere (encodeStep pkg) Unrestricted index before s.1 := by
  induction calls generalizing index with
  | nil => cases hs
  | cons call calls ih =>
    rw [history] at hs
    rcases List.mem_cons.mp hs with rfl | hs
    · exact ⟨[], .nil _⟩
    · cases hstep : encodeStep pkg index call with
      | error fault =>
        rw [hstep] at hs
        cases hs
      | ok index' =>
        rw [hstep] at hs
        obtain ⟨before, hrun⟩ := ih hs
        exact ⟨call :: before, .cons trivial hstep hrun⟩

theorem Building.addName_fresh {b : Building} (h : b.Fresh) (item : Bytes) : (b.addName item).Fresh := by
  have hopened : (b.opened item (b.count + .ofNat (split item dot).length)).Fresh := by
    unfold Building.opened
    split_ifs
    · exact ⟨h.pos, h.nodup⟩
    · exact ⟨h.pos, h.nodup⟩
  exact (Building.addSuffixes_spec item
    ((split item dot).take ((split item dot).length % 65536)).reverse [] 0 hopened).1

theorem build_fresh (names : List Bytes) : (build names).Fresh := by
  have hfold (b : Building) (hb : b.Fresh) : (names.foldl Building.addName b).Fresh := by
    induction names generalizing b with
    | nil => exact hb
    | cons name names ih => exact ih _ (Building.addName_fresh hb name)
  apply hfold
  constructor
  · intro e he
    cases he
  · exact List.nodup_nil

theorem Building.addSuffix_names {b : Building} {item name : Bytes} {pos : ℕ} {e : CompressIndex}
    (he : e ∈ (b.addSuffix item name pos).1.compress_index) : e ∈ b.compress_index ∨ e.name = name := by
  unfold Building.addSuffix at he
  split at he
  · rcases List.mem_append.mp he with he | he
    · exact .inl he
    · rw [List.mem_singleton.mp he]
      exact .inr rfl
  · exact .inl he

theorem Building.addSuffixes_names {b : Building} {item : Bytes} {words tail : List Bytes} {pos : ℕ}
    {e : CompressIndex}
    (he : e ∈ (Building.addSuffixes item words (joinDots tail) tail.isEmpty pos b).compress_index) :
    e ∈ b.compress_index ∨ e.name ∈ suffixNames (words.reverse ++ tail) := by
  induction words generalizing tail pos b with
  | nil => exact .inl he
  | cons word words ih =>
    rw [Building.addSuffixes, joinDots_grow] at he
    rw [List.reverse_cons, List.append_assoc, List.singleton_append]
    rcases ih he with he | he
    · rcases Building.addSuffix_names he with he | hname
      · exact .inl he
      · rw [hname]
        exact .inr (mem_suffixNames.mpr ⟨words.reverse, word :: tail, rfl, List.cons_ne_nil _ _, rfl⟩)
    · exact .inr he

/-- An index has entries for the suffixes of its names only. -/
theorem build_names {names : List Bytes} {e : CompressIndex} (he : e ∈ (build names).compress_index) :
    ∃ item ∈ names, e.name ∈ suffixNames ((split item dot).take ((split item dot).length % 65536)) := by
  have hfold (rest : List Bytes) (b : Building)
      (he : e ∈ (rest.foldl Building.addName b).compress_index) : e ∈ b.compress_index ∨
        ∃ item ∈ rest, e.name ∈ suffixNames ((split item dot).take ((split item dot).length % 65536)) := by
    induction rest generalizing b with
    | nil => exact .inl he
    | cons name rest ih =>
      rcases ih _ he with he | ⟨item, hitem, he⟩
      · have haddName : b.addName name = Building.addSuffixes name
            ((split name dot).take ((split name dot).length % 65536)).reverse (joinDots [])
            ([] : List Bytes).isEmpty 0 (b.opened name (b.count + .ofNat (split name dot).length)) := rfl
        rw [haddName] at he
        rcases Building.addSuffixes_names he with he | he
        · refine .inl ?_
          unfold Building.opened at he
          split_ifs at he <;> exact he
        · rw [List.reverse_reverse, List.append_nil] at he
          exact .inr ⟨name, List.mem_cons_self, he⟩
      · exact .inr ⟨item, List.mem_cons_of_mem _ hitem, he⟩
  rcases hfold names _ he with he | h
  · cases he
  · exact h

/-- What was recorded since `start` had no suffix with a position there. -/
def Later (start now : Bytes → UInt16) : Prop :=
  ∀ ls name, Spells ls name → now name ≠ start name → ∀ s ∈ suffixNames ls, start s = 0

theorem mem_suffixNames_cut {place : Bytes → UInt16} {ls : List Bytes} {s : Bytes}
    (hs : s ∈ suffixNames ls) (hplace : place s ≠ 0) : s ∈ suffixNames (cut place ls).2 := by
  induction ls with
  | nil => cases hs
  | cons l ls ih =>
    rw [cut]
    split_ifs with hzero
    · rcases List.mem_cons.mp hs with rfl | hs
      · exact absurd hzero hplace
      · exact ih hs
    · exact hs

theorem find?_cut {place : Bytes → UInt16} {items : List CompressIndex} {ls : List Bytes}
    (hnames : items.map (·.name) = suffixNames ls) (hpos : ∀ e ∈ items, e.pos = place e.name)
    (hne : (cut place ls).2 ≠ []) : ∃ item ∈ items, (items.find? fun e => e.pos ≠ 0) = some item ∧
      item.name = joinDots (cut place ls).2 := by
  induction ls generalizing items with
  | nil => exact absurd rfl hne
  | cons l ls ih =>
    rw [suffixNames] at hnames
    obtain ⟨item, items, rfl, hname, hnames⟩ := List.map_eq_cons_iff.mp hnames
    have hitem := hpos item List.mem_cons_self
    rw [hname] at hitem
    rw [cut] at hne ⊢
    split_ifs at hne ⊢ with hzero
    · obtain ⟨found, hmem, hfind, hfound⟩ := ih hnames (fun e he => hpos e (List.mem_cons_of_mem _ he)) hne
      refine ⟨found, List.mem_cons_of_mem _ hmem, ?_, hfound⟩
      rw [List.find?_cons_of_neg (by simp [hitem, hzero]), hfind]
    · refine ⟨item, List.mem_cons_self, ?_, hname⟩
      rw [List.find?_cons_of_pos (by simp [hitem, hzero])]

theorem Spells.of_suffix {ls : List Bytes} {name s : Bytes} (h : Spells ls name) (hs : s ∈ suffixNames ls) :
    ∃ b, Spells b s ∧ suffixNames b ⊆ suffixNames ls := by
  obtain ⟨a, b, rfl, hb, rfl⟩ := mem_suffixNames.mp hs
  refine ⟨b, h.suffix hb, fun t ht => ?_⟩
  obtain ⟨c, d, rfl, hd, rfl⟩ := mem_suffixNames.mp ht
  exact mem_suffixNames.mpr ⟨a ++ c, d, (List.append_assoc _ _ _).symm, hd, rfl⟩

section

variable {index : Index} (hf : index.Fresh) (hd : index.Distinct) {start now : Bytes → UInt16}
  {ls : List Bytes} {name : Bytes}

include hf hd in
/-- A name with a suffix that had a position ends with a pointer to such a position. -/
theorem Later.pointsTo (h : Later start now) {numbers : List UInt16} (hname : Spells ls name)
    (hnum : index.Numbers name ls (suffixNames ls) numbers) {s : Bytes} (hs : s ∈ suffixNames ls)
    (hstart : start s ≠ 0) : ∃ item ∈ (index.placed start).compress_index,
      DnsPackage.pointsTo (index.placed now) name = some item := by
  obtain ⟨b, hb, -⟩ := hname.of_suffix hs
  have hsame : now s = start s := by
    by_contra hne
    exact hstart (h b s hb hne s (by
      rw [hb.name]
      exact mem_suffixNames.mpr ⟨[], b, rfl, hb.ne_nil, rfl⟩))
  have hcut : s ∈ suffixNames (cut now ls).2 := mem_suffixNames_cut hs (hsame ▸ hstart)
  have hne : (cut now ls).2 ≠ [] := by
    intro hnil
    rw [hnil] at hcut
    cases hcut
  obtain ⟨hnames, hpos⟩ := hnum.sorted hf hd now
  obtain ⟨item, hmem, hfind, hitem⟩ := find?_cut hnames hpos hne
  have hrest : Spells (cut now ls).2 item.name := by
    rw [hitem]
    exact Spells.suffix (by rwa [cut_append]) hne
  have hold : now item.name = start item.name := by
    by_contra hchanged
    exact hstart (h _ _ hrest hchanged s hcut)
  refine ⟨item, ?_, ?_⟩
  · have hentry := (List.perm_insertionSort _ _).subset hmem
    obtain ⟨e, he, rfl⟩ := List.mem_map.mp (List.mem_of_mem_filter hentry)
    exact List.mem_map.mpr ⟨e, he, by rw [← hold]⟩
  · have hlookup : (index.placed now).compress_mapping.lookup name = some numbers := hnum.lookup
    rw [DnsPackage.pointsTo, hlookup]
    exact hfind

theorem Later.relocate (h : Later start now) (hname : Spells ls name)
    (hzero : ∀ s ∈ suffixNames ls, start s = 0) (offset : UInt16) :
    Later start (Index.relocate name offset now ls now) := by
  intro ls' name' hname' hne s hs
  rw [relocate_apply] at hne
  split_ifs at hne with hmem
  · obtain ⟨b, hb, hsub⟩ := hname.of_suffix (List.mem_of_mem_take hmem)
    obtain rfl := hname'.unique hb
    exact hzero s (hsub hs)
  · exact h ls' name' hname' hne s hs

include hf hd in
theorem Later.points {es : List Entry} (h : Later start now) (hes : KnowsEntries index es) (base : ℕ)
    {e : Entry} (he : e ∈ es) (hname : Spells ls e.name) {s : Bytes} (hs : s ∈ suffixNames ls)
    (hstart : start s ≠ 0) : ∃ item ∈ (index.placed start).compress_index,
      Points es base (index.placed now) item := by
  induction es generalizing now base with
  | nil => cases he
  | cons e' es ih =>
    obtain ⟨ls', numbers, hls', hnum⟩ := hes e' List.mem_cons_self
    by_cases hold : ∃ s ∈ suffixNames ls', start s ≠ 0
    · obtain ⟨s', hs', hstart'⟩ := hold
      obtain ⟨item, hitem, hpoints⟩ := h.pointsTo hf hd hls' hnum hs' hstart'
      exact ⟨item, hitem, .name hpoints⟩
    · have hzero (s : Bytes) (hs : s ∈ suffixNames ls') : start s = 0 := by
        by_contra hne
        exact hold ⟨s, hs, hne⟩
      have he' : e ∈ es := by
        rcases List.mem_cons.mp he with rfl | he
        · obtain rfl := hname.unique hls'
          exact absurd (hzero s hs) hstart
        · exact he
      obtain ⟨item, hitem, hpoints⟩ := ih (h.relocate hls' hzero (.ofNat base))
        (fun e he => hes e (List.mem_cons_of_mem _ he)) _ he'
      exact ⟨item, hitem, .behind (nameBytes_placed hf hd hls' hnum base) hpoints⟩

end

theorem names_eq (pkg : DnsPackage) : pkg.names = pkg.entries.flatten.map (·.name) := by
  simp [names, entries, Function.comp_def, Question.entry, Answer.entry]

/-- Without a pointer to an entry as it was when the call began no position was recorded then. -/
theorem unrecorded_of_points {pkg : DnsPackage} (h : WellFormed pkg)
    (hlabels : (pkg.names.map labelCount).sum < 65536) {index : Index} (hmoved : Moved (buildIndex pkg) index)
    (hpoints : ∀ item, Points pkg.entries.flatten 12 index item → item ∉ index.compress_index) :
    Unrecorded index := by
  obtain ⟨start, rfl⟩ := hmoved
  obtain ⟨hfresh, hdistinct, hknows⟩ := buildIndex_knows h hlabels
  intro e he
  by_contra hpos
  obtain ⟨e₀, he₀, rfl⟩ := List.mem_map.mp he
  obtain ⟨name, hname, hsuffix⟩ := build_names he₀
  obtain ⟨ls, hls⟩ := h.names name hname
  have hcount : (split name dot).length < 65536 :=
    lt_of_le_of_lt (List.le_sum_of_mem (List.mem_map_of_mem hname : labelCount name ∈ _)) hlabels
  rw [Nat.mod_eq_of_lt hcount, List.take_length, hls.split_eq] at hsuffix
  have hmem : name ∈ pkg.entries.flatten.map (·.name) := names_eq pkg ▸ hname
  obtain ⟨entry, hentry, rfl⟩ := List.mem_map.mp hmem
  have hstart : Later start start := fun _ _ _ hne => absurd rfl hne
  obtain ⟨item, hitem, hpoint⟩ := hstart.points hfresh hdistinct
    (hknows _ fun e he => names_eq pkg ▸ List.mem_map_of_mem he) 12 hentry hls hsuffix hpos
  exact hpoints item hpoint hitem

theorem Encodes.eq_wire {pkg : DnsPackage} (hc : pkg.Complete) {index : Index} {call : Call}
    {octets : Bytes} (h : Encodes pkg index call octets) : wire pkg index = .ok octets := by
  obtain ⟨W, n, buffer, index', hW, hroom, hbuf, hlt, hencode, rfl⟩ := h
  obtain ⟨bss, hbss, hcat⟩ := wire_eq_ok.mp hW
  obtain ⟨index'', hencode'⟩ := encode_room hc hbss hcat hlt hroom hbuf
  rw [hencode] at hencode'
  cases hencode'
  rw [hW, List.take_left]

/-- The encodings of a run are repeatable when they all begin without a recorded position; if all
labels can be counted, then only so. -/
theorem repeatable_when_unrecorded {pkg : DnsPackage} (hc : pkg.Complete) (calls : List Call) :
    ((∀ s ∈ history pkg (buildIndex pkg) calls, (∃ octets, Encodes pkg s.1 s.2 octets) →
        Unrecorded s.1) → Repeatable pkg calls) ∧
      (WellFormed pkg → (pkg.names.map labelCount).sum < 65536 → Repeatable pkg calls →
        ∀ s ∈ history pkg (buildIndex pkg) calls, (∃ octets, Encodes pkg s.1 s.2 octets) →
          Unrecorded s.1) := by
  have hfresh : (buildIndex pkg).Fresh := build_fresh _
  have hmoved : ∀ s ∈ history pkg (buildIndex pkg) calls, Moved (buildIndex pkg) s.1 := by
    intro s hs
    obtain ⟨before, hrun⟩ := exists_run_of_mem_history hs
    refine hrun.invariant (Moved (buildIndex pkg)) (fun _ _ _ h _ hstep => encodeStep_moved h hstep) ?_
    exact ⟨fun _ => 0, (placed_zero hfresh).symm⟩
  constructor
  · intro h
    have hwire : ∀ s ∈ history pkg (buildIndex pkg) calls, ∀ octets, Encodes pkg s.1 s.2 octets →
        wire pkg (buildIndex pkg) = .ok octets := by
      intro s hs octets hencodes
      have hindex := (hmoved s hs).eq_of_unrecorded hfresh (h s hs ⟨octets, hencodes⟩)
      rw [← hindex]
      exact hencodes.eq_wire hc
    refine ⟨fun s hs s' hs' octets octets' hencodes hencodes' => ?_, fun s hs octets hencodes item hitem => ?_⟩
    · have heq := (hwire s hs octets hencodes).symm.trans (hwire s' hs' octets' hencodes')
      exact Except.ok.inj heq
    · intro hmem
      exact hitem.pos_ne_zero (h s hs ⟨octets, hencodes⟩ item hmem)
  · intro hwell hlabels hrepeatable s hs hencodes
    obtain ⟨octets, hencodes⟩ := hencodes
    exact unrecorded_of_points hwell hlabels (hmoved s hs) (hrepeatable.pointers s hs octets hencodes)

/-- There is no room for the header at first. -/
theorem repeatable_askingA : Repeatable (askingA []) [⟨[], 5⟩, ⟨List.replicate 19 0, 19⟩] := by
  have hhistory : history (askingA []) (buildIndex (askingA []))
      [⟨[], 5⟩, ⟨List.replicate 19 0, 19⟩] = [(buildIndex (askingA []), ⟨[], 5⟩),
        (buildIndex (askingA []), ⟨List.replicate 19 0, 19⟩)] := rfl
  have hfresh : (buildIndex (askingA [])).Fresh := build_fresh _
  refine (repeatable_when_unrecorded (complete_askingA (List.forall_mem_nil _)) _).1 fun s hs _ => ?_
  rw [hhistory, List.mem_pair] at hs
  rcases hs with rfl | rfl
  · exact hfresh.pos
  · exact hfresh.pos

/-- The pointer is to where the name itself is. -/
theorem size_not_repeatable : ¬ Repeatable (askingA []) [⟨[], 0⟩, ⟨List.replicate 19 0, 19⟩] := by
  intro h
  let index : Index := { compress_index := [⟨1, [97], 12⟩], compress_mapping := [([97], [1])] }
  have hhistory : history (askingA []) (buildIndex (askingA []))
      [⟨[], 0⟩, ⟨List.replicate 19 0, 19⟩] = [(buildIndex (askingA []), ⟨[], 0⟩),
        (index, ⟨List.replicate 19 0, 19⟩)] := rfl
  have hs : (index, Call.mk (List.replicate 19 0) 19) ∈ history (askingA []) (buildIndex (askingA []))
      [⟨[], 0⟩, ⟨List.replicate 19 0, 19⟩] := by
    rw [hhistory]
    exact List.mem_cons_of_mem _ List.mem_cons_self
  have hencodes : Encodes (askingA []) index ⟨List.replicate 19 0, 19⟩
      [0, 1, 0, 0, 0, 1, 0, 0, 0, 0, 0, 0, 192, 12, 0, 1, 0, 1] :=
    ⟨_, _, _, _, rfl, by decide, by decide, by decide, rfl, rfl⟩
  exact h.pointers _ hs _ hencodes ⟨1, [97], 12⟩ (.name rfl) List.mem_cons_self

end DnsPackage

end Sese
