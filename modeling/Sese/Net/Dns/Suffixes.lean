import Sese.Net.Dns.Labels

/-!
# What the index knows of a name

`build` gives every name of the package the numbers of its suffixes. While the package is
encoded only the positions of the entries change, so an index in use is the built one with
positions given by a function on names.
-/
namespace Sese

open Foundation

namespace DnsPackage

/-- The suffixes of the name with these labels, the longest first. -/
def suffixNames : List Bytes → List Bytes
  | [] => []
  | l :: ls => joinDots (l :: ls) :: suffixNames ls

theorem mem_suffixNames {ls : List Bytes} {s : Bytes} :
    s ∈ suffixNames ls ↔ ∃ a b, ls = a ++ b ∧ b ≠ [] ∧ s = joinDots b := by
  induction ls with
  | nil => simp [suffixNames]
  | cons l ls ih =>
    rw [suffixNames, List.mem_cons, ih]
    constructor
    · rintro (rfl | ⟨a, b, rfl, hb, rfl⟩)
      · exact ⟨[], l :: ls, rfl, List.cons_ne_nil _ _, rfl⟩
      · exact ⟨l :: a, b, rfl, hb, rfl⟩
    · rintro ⟨a, b, hab, hb, rfl⟩
      cases a with
      | nil =>
        rw [List.nil_append] at hab
        exact .inl (by rw [hab])
      | cons l' a =>
        obtain ⟨rfl, rfl⟩ := List.cons.inj hab
        exact .inr ⟨a, b, rfl, hb, rfl⟩

@[simp] theorem length_suffixNames (ls : List Bytes) : (suffixNames ls).length = ls.length := by
  induction ls with
  | nil => rfl
  | cons l ls ih => rw [suffixNames, List.length_cons, List.length_cons, ih]

theorem length_lt_of_mem_suffixNames {l s : Bytes} {ls : List Bytes} (h : s ∈ suffixNames ls) :
    s.length < (joinDots (l :: ls)).length := by
  obtain ⟨a, b, rfl, hb, rfl⟩ := mem_suffixNames.mp h
  have h₁ := length_joinDots (List.cons_ne_nil l (a ++ b))
  have h₂ := length_joinDots hb
  simp only [labelBytes_cons, labelBytes_append, List.length_cons, List.length_append] at h₁
  omega

theorem suffixNames_pairwise (ls : List Bytes) :
    (suffixNames ls).Pairwise fun s t => t.length < s.length := by
  induction ls with
  | nil => exact .nil
  | cons l ls ih => exact .cons (fun s hs => length_lt_of_mem_suffixNames hs) ih

theorem suffixNames_nodup (ls : List Bytes) : (suffixNames ls).Nodup :=
  (suffixNames_pairwise ls).imp fun h heq => absurd (heq ▸ h) (Nat.lt_irrefl _)

theorem eq_of_mem_suffixNames {ls : List Bytes} {s t : Bytes} (hs : s ∈ suffixNames ls)
    (ht : t ∈ suffixNames ls) (hlen : s.length = t.length) : s = t := by
  induction ls with
  | nil => cases hs
  | cons l ls ih =>
    rcases List.mem_cons.mp hs with rfl | hs
    · rcases List.mem_cons.mp ht with rfl | ht
      · rfl
      · have := length_lt_of_mem_suffixNames (l := l) ht
        omega
    · rcases List.mem_cons.mp ht with rfl | ht
      · have := length_lt_of_mem_suffixNames (l := l) hs
        omega
      · exact ih hs ht

namespace Index

/-- The index has numbers for the suffixes `names` of the name `item` with the labels `ls`, and
none for anything else. -/
structure Numbers (index : Index) (item : Bytes) (ls names : List Bytes)
    (numbers : List UInt16) : Prop where
  lookup : index.compress_mapping.lookup item = some numbers
  complete : ∀ s ∈ names, ∃ e ∈ index.compress_index, e.name = s ∧ e.index ∈ numbers
  sound : ∀ n ∈ numbers, ∃ e ∈ index.compress_index, e.index = n ∧ e.name ∈ suffixNames ls

/-- The entries have not been written yet, and have different names. -/
structure Fresh (index : Index) : Prop where
  pos : ∀ e ∈ index.compress_index, e.pos = 0
  nodup : (index.compress_index.map (·.name)).Nodup

theorem lookup_map_insert (mapping : List (Bytes × List UInt16)) (item item' : Bytes) (n : UInt16) :
    (mapping.map fun e => if e.1 = item then (e.1, e.2.insert n) else e).lookup item' =
      (mapping.lookup item').map fun numbers =>
        if item' = item then numbers.insert n else numbers := by
  induction mapping with
  | nil => rfl
  | cons e mapping ih =>
    obtain ⟨key, numbers⟩ := e
    rw [List.map_cons]
    by_cases hi : item' = key
    · subst hi
      by_cases hk : item' = item
      · simp only [hk, if_pos, List.lookup_cons_self, Option.map_some]
      · simp only [hk, if_false, List.lookup_cons_self, Option.map_some]
    · have hne : (item' == key) = false := beq_eq_false_iff_ne.mpr hi
      by_cases hk : key = item
      · rw [if_pos hk, List.lookup_cons, List.lookup_cons, hne]
        exact ih
      · rw [if_neg hk, List.lookup_cons, List.lookup_cons, hne]
        exact ih

theorem Building.addSuffix_spec (b : Building) (item name : Bytes) (pos : ℕ) (hb : b.Fresh) :
    (b.addSuffix item name pos).1.Fresh ∧
    b.compress_index <+: (b.addSuffix item name pos).1.compress_index ∧
    ∃ e ∈ (b.addSuffix item name pos).1.compress_index, e.name = name ∧
      ∀ item', (b.addSuffix item name pos).1.compress_mapping.lookup item' =
        (b.compress_mapping.lookup item').map fun numbers =>
          if item' = item then numbers.insert e.index else numbers := by
  unfold Building.addSuffix
  cases hfind : b.compress_index.find? fun e => e.name = name with
  | none =>
    rw [List.find?_eq_none] at hfind
    refine ⟨⟨?_, ?_⟩, ?_, ?_⟩
    · intro e he
      rcases List.mem_append.mp he with he | he
      · exact hb.pos e he
      · rw [List.mem_singleton.mp he]
    · change ((b.compress_index ++ _).map _).Nodup
      rw [List.map_append]
      refine List.Nodup.append hb.nodup (List.nodup_singleton _) ?_
      intro s hs hs'
      obtain ⟨e, he, rfl⟩ := List.mem_map.mp hs
      exact hfind e he (by simpa using hs')
    · exact List.prefix_append _ _
    · refine ⟨_, List.mem_append_right _ (List.mem_singleton_self _), rfl, ?_⟩
      intro item'
      exact lookup_map_insert _ _ _ _
  | some e =>
    refine ⟨⟨hb.pos, hb.nodup⟩, List.prefix_rfl, ?_⟩
    refine ⟨e, List.mem_of_find?_eq_some hfind, by simpa using List.find?_some hfind, ?_⟩
    intro item'
    exact lookup_map_insert _ _ _ _

theorem Building.addSuffix_numbers {b : Building} {item name : Bytes} (pos : ℕ) (hb : b.Fresh)
    {item' : Bytes} {ls names : List Bytes} {numbers : List UInt16}
    (h : b.Numbers item' ls names numbers) (hname : item' = item → name ∈ suffixNames ls) :
    ∃ numbers', (b.addSuffix item name pos).1.Numbers item' ls
      (if item' = item then name :: names else names) numbers' := by
  obtain ⟨-, hgrow, e, he, hename, hlookup⟩ := b.addSuffix_spec item name pos hb
  have hcomplete : ∀ s ∈ names, ∃ e ∈ (b.addSuffix item name pos).1.compress_index,
      e.name = s ∧ e.index ∈ numbers := by
    intro s hs
    obtain ⟨e', he', hs'⟩ := h.complete s hs
    exact ⟨e', hgrow.subset he', hs'⟩
  have hsound : ∀ n ∈ numbers, ∃ e ∈ (b.addSuffix item name pos).1.compress_index,
      e.index = n ∧ e.name ∈ suffixNames ls := by
    intro n hn
    obtain ⟨e', he', hn'⟩ := h.sound n hn
    exact ⟨e', hgrow.subset he', hn'⟩
  by_cases hitem : item' = item
  · refine ⟨numbers.insert e.index, ?_, ?_, ?_⟩
    · rw [hlookup, h.lookup, Option.map_some, if_pos hitem]
    · intro s hs
      rw [if_pos hitem] at hs
      rcases List.mem_cons.mp hs with rfl | hs
      · exact ⟨e, he, hename, List.mem_insert_self⟩
      · obtain ⟨e', he', hs', hn⟩ := hcomplete s hs
        exact ⟨e', he', hs', List.mem_insert_of_mem hn⟩
    · intro n hn
      rcases List.mem_insert_iff.mp hn with rfl | hn
      · exact ⟨e, he, rfl, hename ▸ hname hitem⟩
      · exact hsound n hn
  · refine ⟨numbers, ?_, ?_, hsound⟩
    · rw [hlookup, h.lookup, Option.map_some, if_neg hitem]
    · rw [if_neg hitem]
      exact hcomplete

theorem joinDots_grow (word : Bytes) (tail : List Bytes) :
    word ++ (if tail.isEmpty then joinDots tail else dot ++ joinDots tail) =
      joinDots (word :: tail) := by
  cases tail with
  | nil => simp [joinDots]
  | cons l ls => rfl

/-- The loop over the labels, from the last one on; `tail` are those it has taken. -/
theorem Building.addSuffixes_spec (item : Bytes) (words tail : List Bytes) (pos : ℕ)
    {b : Building} (hb : b.Fresh) :
    (Building.addSuffixes item words (joinDots tail) tail.isEmpty pos b).Fresh ∧
    (∀ item', ((Building.addSuffixes item words (joinDots tail) tail.isEmpty pos
      b).compress_mapping.lookup item').isSome = (b.compress_mapping.lookup item').isSome) ∧
    ∀ item' ls names numbers, b.Numbers item' ls names numbers →
      (item' = item → ls = words.reverse ++ tail) →
      ∃ names' numbers', (Building.addSuffixes item words (joinDots tail) tail.isEmpty pos b).Numbers
        item' ls names' numbers' ∧ names ⊆ names' ∧
        (item' = item → ∀ s ∈ suffixNames ls, s ∈ suffixNames tail ∨ s ∈ names') := by
  induction words generalizing tail pos b with
  | nil =>
    refine ⟨hb, fun _ => rfl, ?_⟩
    intro item' ls names numbers h hls
    refine ⟨names, numbers, h, List.Subset.refl _, ?_⟩
    intro hitem s hs
    rw [hls hitem] at hs
    exact .inl hs
  | cons word words ih =>
    rw [Building.addSuffixes, joinDots_grow]
    dsimp only
    obtain ⟨hfresh, -, e, -, -, hlookup⟩ := b.addSuffix_spec item (joinDots (word :: tail)) pos hb
    obtain ⟨hfresh', hsome, hnumbers⟩ := ih (word :: tail)
      (b.addSuffix item (joinDots (word :: tail)) pos).2 hfresh
    refine ⟨hfresh', ?_, ?_⟩
    · intro item'
      refine (hsome item').trans ?_
      rw [hlookup, Option.isSome_map]
    · intro item' ls names numbers h hls
      have hmem : item' = item → joinDots (word :: tail) ∈ suffixNames ls := by
        intro hitem
        rw [hls hitem, List.reverse_cons, List.append_assoc]
        exact mem_suffixNames.mpr ⟨words.reverse, word :: tail, rfl, List.cons_ne_nil _ _, rfl⟩
      obtain ⟨numbers₁, h₁⟩ := Building.addSuffix_numbers pos hb h hmem
      obtain ⟨names', numbers', h', hsub, hall⟩ := hnumbers item' ls _ numbers₁ h₁ (by
        intro hitem
        rw [hls hitem, List.reverse_cons, List.append_assoc]
        rfl)
      refine ⟨names', numbers', h', ?_, ?_⟩
      · intro s hs
        apply hsub
        split_ifs
        · exact List.mem_cons_of_mem _ hs
        · exact hs
      · intro hitem s hs
        rcases hall hitem s hs with hs | hs
        · rcases List.mem_cons.mp hs with rfl | hs
          · exact .inr (hsub (by rw [if_pos hitem]; exact List.mem_cons_self))
          · exact .inl hs
        · exact .inr hs

/-- The index knows the names `done` and no others. -/
structure Building.Knows (b : Building) (done : List Bytes) : Prop where
  fresh : b.Fresh
  numbers : ∀ item ∈ done, ∀ ls, Spells ls item →
    ∃ numbers, b.Numbers item ls (suffixNames ls) numbers
  keys : ∀ item, (b.compress_mapping.lookup item).isSome → item ∈ done

theorem Numbers.mono {index : Index} {item : Bytes} {ls names names' : List Bytes}
    {numbers : List UInt16} (h : index.Numbers item ls names numbers) (hsub : names' ⊆ names) :
    index.Numbers item ls names' numbers where
  lookup := h.lookup
  complete s hs := h.complete s (hsub hs)
  sound := h.sound

/-- What `addName` starts the loop over the labels with: `item` has a set of numbers. -/
def Building.opened (b : Building) (item : Bytes) (count : UInt16) : Building :=
  if (b.compress_mapping.lookup item).isSome then { b with count := count }
  else { b with count := count, compress_mapping := b.compress_mapping ++ [(item, [])] }

theorem Building.Knows.opened {b : Building} {done ls : List Bytes} {item : Bytes} (h : b.Knows done)
    (hitem : Spells ls item) (count : UInt16) :
    (b.opened item count).Fresh ∧
    (∀ item' ∈ done, ∀ ls', Spells ls' item' → ∃ numbers,
      (b.opened item count).Numbers item' ls' (suffixNames ls') numbers) ∧
    (∃ names numbers, (b.opened item count).Numbers item ls names numbers) ∧
    ∀ item', ((b.opened item count).compress_mapping.lookup item').isSome →
      item' ∈ done ++ [item] := by
  unfold Building.opened
  by_cases hin : (b.compress_mapping.lookup item).isSome
  · rw [if_pos hin]
    obtain ⟨numbers, hnumbers⟩ := h.numbers item (h.keys item hin) ls hitem
    refine ⟨⟨h.fresh.pos, h.fresh.nodup⟩, ?_, ?_, ?_⟩
    · intro item' hmem ls' hls'
      obtain ⟨numbers, hn⟩ := h.numbers item' hmem ls' hls'
      exact ⟨numbers, hn.lookup, hn.complete, hn.sound⟩
    · exact ⟨_, numbers, hnumbers.lookup, hnumbers.complete, hnumbers.sound⟩
    · intro item' hsome
      exact List.mem_append_left _ (h.keys item' hsome)
  · rw [if_neg hin]
    have hnone : b.compress_mapping.lookup item = none := Option.not_isSome_iff_eq_none.mp hin
    refine ⟨⟨h.fresh.pos, h.fresh.nodup⟩, ?_, ?_, ?_⟩
    · intro item' hmem ls' hls'
      obtain ⟨numbers, hn⟩ := h.numbers item' hmem ls' hls'
      refine ⟨numbers, ?_, hn.complete, hn.sound⟩
      rw [List.lookup_append, hn.lookup, Option.some_or]
    · refine ⟨[], [], ?_, ?_, ?_⟩
      · rw [List.lookup_append, hnone, Option.none_or, List.lookup_cons_self]
      · intro s hs
        cases hs
      · intro n hn
        cases hn
    · intro item' hsome
      rw [List.lookup_append] at hsome
      cases hlook : b.compress_mapping.lookup item' with
      | some numbers => exact List.mem_append_left _ (h.keys item' (by rw [hlook]; rfl))
      | none =>
        by_cases heq : item' = item
        · exact List.mem_append_right _ (List.mem_singleton.mpr heq)
        · rw [hlook, Option.none_or, List.lookup_cons, beq_eq_false_iff_ne.mpr heq] at hsome
          cases hsome

theorem Building.Knows.addName {b : Building} {done ls : List Bytes} {item : Bytes}
    (h : b.Knows done) (hitem : Spells ls item) (hcount : ls.length < 65536) :
    (b.addName item).Knows (done ++ [item]) := by
  have haddName : b.addName item = Building.addSuffixes item ls.reverse (joinDots [])
      ([] : List Bytes).isEmpty 0 (b.opened item (b.count + .ofNat ls.length)) := by
    rw [Building.addName, hitem.split_eq, Nat.mod_eq_of_lt hcount, List.take_length]
    rfl
  obtain ⟨hfresh, hdone, ⟨names, numbers, hown⟩, hkeys⟩ :=
    h.opened hitem (b.count + .ofNat ls.length)
  obtain ⟨hfresh', hsome, hnumbers⟩ := Building.addSuffixes_spec item ls.reverse [] 0 hfresh
  rw [haddName]
  constructor
  · exact hfresh'
  · intro item' hmem ls' hls'
    by_cases heq : item' = item
    · subst heq
      obtain rfl := hls'.unique hitem
      obtain ⟨names', numbers', h', -, hall⟩ := hnumbers item' ls' names numbers hown (by simp)
      refine ⟨numbers', h'.mono ?_⟩
      intro s hs
      rcases hall rfl s hs with hs | hs
      · cases hs
      · exact hs
    · have hin : item' ∈ done := by
        rcases List.mem_append.mp hmem with hmem | hmem
        · exact hmem
        · exact absurd (List.mem_singleton.mp hmem) heq
      obtain ⟨numbers₁, h₁⟩ := hdone item' hin ls' hls'
      obtain ⟨names', numbers', h', hsub, -⟩ := hnumbers item' ls' _ numbers₁ h₁
        (fun heq' => absurd heq' heq)
      exact ⟨numbers', h'.mono hsub⟩
  · intro item' hin
    rw [hsome] at hin
    exact hkeys item' hin

/-- The built index knows all names. -/
theorem build_knows {names : List Bytes}
    (hnames : ∀ name ∈ names, ∃ ls, Spells ls name ∧ ls.length < 65536) :
    (build names).Fresh ∧ ∀ item ∈ names, ∀ ls, Spells ls item →
      ∃ numbers, (build names).Numbers item ls (suffixNames ls) numbers := by
  have hfold : ∀ (rest done : List Bytes) (b : Building), b.Knows done →
      (∀ name ∈ rest, ∃ ls, Spells ls name ∧ ls.length < 65536) →
      (rest.foldl Building.addName b).Knows (done ++ rest) := by
    intro rest
    induction rest with
    | nil =>
      intro done b hb _
      rw [List.append_nil]
      exact hb
    | cons name rest ih =>
      intro done b hb hrest
      obtain ⟨ls, hls, hcount⟩ := hrest name List.mem_cons_self
      rw [List.foldl_cons, ← List.singleton_append, ← List.append_assoc]
      exact ih _ _ (hb.addName hls hcount) fun n hn => hrest n (List.mem_cons_of_mem _ hn)
  have hempty : ({ empty with count := 0 } : Building).Knows [] := by
    refine ⟨⟨?_, List.nodup_nil⟩, ?_, ?_⟩
    · intro e he
      cases he
    · intro item hitem
      cases hitem
    · intro item hitem
      cases hitem
  have hbuilt := hfold names [] _ hempty hnames
  exact ⟨hbuilt.fresh, hbuilt.numbers⟩

end Index

end DnsPackage

end Sese
