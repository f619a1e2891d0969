import Sese.Io.InputStream
import Sese.Net.Http.Header
import Sese.Util.Splitting

/-!
# INI files

`IniConfig`, `IniUtil::parse` and `IniUtil::unparse`, for a stream that takes everything.
-/
namespace Sese.Ini

open Foundation Io
open Net.Http (byteOrder)

abbrev Section := OrdMap byteOrder Bytes

abbrev SectionMap := OrdMap byteOrder Section

@[ext] structure IniConfig where
  defSection : Section := .empty
  sectionMap : SectionMap := .empty
  deriving DecidableEq

/-- `current->emplace`, where `current` is the default section or the one of that name. -/
def IniConfig.emplace (config : IniConfig) (current : Option Bytes) (key value : Bytes) : IniConfig :=
  match current with
  | none => { config with defSection := config.defSection.emplace key value }
  | some name =>
    let section_ := (config.sectionMap.find? name).getD .empty
    { config with sectionMap := config.sectionMap.insert name (section_.emplace key value) }

/-- `find_last_of`. -/
def findLastOf (line : Bytes) (c : UInt8) : Option ℕ :=
  (line.reverse.findIdx? fun b => b = c).map fun i => line.length - 1 - i

/-- What one line does to the configuration and to the current section. -/
def parseLine (config : IniConfig) (current : Option Bytes) (line : Bytes) : IniConfig × Option Bytes :=
  if line.head? = some 91 then
    match findLastOf line 93 with
    | none => (config, current)
    | some pos =>
      let name := (line.drop 1).take (pos - 1)
      ({ config with sectionMap := config.sectionMap.emplace name .empty }, some name)
  else if line.head? = some 35 then (config, current)
  else
    match line.findIdx? fun b => b = 61 with
    | none => (config, current)
    | some pos => (config.emplace current (line.take pos) (line.drop (pos + 1)), current)

/-- The loop of `parse`. Every pass but the last one takes an octet of the stream. -/
def parseLoop : ℕ → IniConfig → Option Bytes → Bytes → IniConfig
  | 0, config, _, _ => config
  | fuel + 1, config, current, input =>
    let (line, input) := readLine [] input
    if line = [] then config
    else
      let (config, current) := parseLine config current line
      parseLoop fuel config current input

def parse (input : Bytes) : IniConfig := parseLoop (input.length + 1) {} none input

def unparsePair (pair : Bytes × Bytes) : Bytes := pair.1 ++ 61 :: (pair.2 ++ [10])

/-- The pairs of a section and the empty line behind them. -/
def unparseSection (section_ : Section) : Bytes := section_.entries.flatMap unparsePair ++ [10]

def unparse (target : IniConfig) : Bytes :=
  unparseSection target.defSection ++
    target.sectionMap.entries.flatMap fun map =>
      91 :: (map.1 ++ ([93, 10] ++ unparseSection map.2))

structure Line (line : Bytes) : Prop where
  ne_nil : line ≠ []
  cr : (13 : UInt8) ∉ line
  lf : (10 : UInt8) ∉ line

/-- The text has these lines, with blank lines between them. -/
inductive Laid : Bytes → List Bytes → Prop
  | nil : Laid [] []
  | blank {text : Bytes} {lines : List Bytes} : Laid text lines → Laid (10 :: text) lines
  | line {line text : Bytes} {lines : List Bytes} : Line line → Laid text lines →
    Laid (line ++ 10 :: text) (line :: lines)

theorem Laid.length_le {text : Bytes} {lines : List Bytes} (h : Laid text lines) :
    lines.length ≤ text.length := by
  induction h with
  | nil => rfl
  | blank _ ih => exact Nat.le_succ_of_le ih
  | line _ _ ih =>
    rw [List.length_append, List.length_cons, List.length_cons]
    omega

theorem Laid.append {front text : Bytes} {lines lines' : List Bytes} (h : Laid front lines)
    (h' : Laid text lines') : Laid (front ++ text) (lines ++ lines') := by
  induction h with
  | nil => exact h'
  | blank _ ih => exact ih.blank
  | line hline _ ih =>
    rw [List.append_assoc]
    exact .line hline ih

def parseLines (state : IniConfig × Option Bytes) (lines : List Bytes) : IniConfig × Option Bytes :=
  lines.foldl (fun s line => parseLine s.1 s.2 line) state

theorem Laid.parseLoop_eq {text : Bytes} {lines : List Bytes} (h : Laid text lines) {fuel : ℕ}
    (hfuel : lines.length < fuel) (config : IniConfig) (current : Option Bytes) :
    parseLoop fuel config current text = (parseLines (config, current) lines).1 := by
  induction h generalizing fuel config current with
  | nil =>
    cases fuel with
    | zero => rfl
    | succ fuel => rfl
  | blank _ ih =>
    cases fuel with
    | zero => cases hfuel
    | succ fuel =>
      rw [← ih hfuel, parseLoop, parseLoop, readLine_blank]
  | line hline _ ih =>
    cases fuel with
    | zero => cases hfuel
    | succ fuel =>
      rw [parseLoop, readLine_line hline.ne_nil hline.cr hline.lf]
      dsimp only
      rw [if_neg hline.ne_nil, ih (Nat.lt_of_succ_lt_succ hfuel)]
      rfl

theorem Laid.parse_eq {text : Bytes} {lines : List Bytes} (h : Laid text lines) :
    parse text = (parseLines ({}, none) lines).1 :=
  h.parseLoop_eq (Nat.lt_succ_of_le h.length_le) _ _

/-- What the keys and values of a section have to be. -/
structure Pair (pair : Bytes × Bytes) : Prop where
  key_cr : (13 : UInt8) ∉ pair.1
  key_lf : (10 : UInt8) ∉ pair.1
  key_equal : (61 : UInt8) ∉ pair.1
  key_bracket : pair.1.head? ≠ some 91
  key_comment : pair.1.head? ≠ some 35
  value_cr : (13 : UInt8) ∉ pair.2
  value_lf : (10 : UInt8) ∉ pair.2

def pairLine (pair : Bytes × Bytes) : Bytes := pair.1 ++ 61 :: pair.2

def sectionLine (name : Bytes) : Bytes := 91 :: (name ++ [93])

theorem Pair.line {pair : Bytes × Bytes} (h : Pair pair) : Line (pairLine pair) where
  ne_nil := by simp [pairLine]
  cr := by simp [pairLine, h.key_cr, h.value_cr]
  lf := by simp [pairLine, h.key_lf, h.value_lf]

theorem sectionLine_line {name : Bytes} (hcr : (13 : UInt8) ∉ name) (hlf : (10 : UInt8) ∉ name) :
    Line (sectionLine name) where
  ne_nil := by simp [sectionLine]
  cr := by simp [sectionLine, hcr]
  lf := by simp [sectionLine, hlf]

theorem parseLine_pair {pair : Bytes × Bytes} (h : Pair pair) (config : IniConfig)
    (current : Option Bytes) :
    parseLine config current (pairLine pair) = (config.emplace current pair.1 pair.2, current) := by
  obtain ⟨key, value⟩ := pair
  have hhead : ∀ b : UInt8, b ≠ 61 → key.head? ≠ some b → (key ++ 61 :: value).head? ≠ some b := by
    intro b hb hkey
    cases key with
    | nil => simpa using hb.symm
    | cons c key => exact hkey
  rw [parseLine, pairLine, if_neg (hhead 91 (by decide) h.key_bracket),
    if_neg (hhead 35 (by decide) h.key_comment), findIdx?_octet h.key_equal]
  simp

theorem findLastOf_sectionLine (name : Bytes) :
    findLastOf (sectionLine name) 93 = some (name.length + 1) := by
  simp [findLastOf, sectionLine, List.findIdx?_cons]

theorem parseLine_section (name : Bytes) (config : IniConfig) (current : Option Bytes) :
    parseLine config current (sectionLine name) =
      ({ config with sectionMap := config.sectionMap.emplace name .empty }, some name) := by
  rw [parseLine, if_pos (by rfl), findLastOf_sectionLine]
  simp [sectionLine]

def configLines (target : IniConfig) : List Bytes :=
  target.defSection.entries.map pairLine ++
    target.sectionMap.entries.flatMap fun map => sectionLine map.1 :: map.2.entries.map pairLine

/-- What can be written so that it is read back. -/
structure Writable (target : IniConfig) : Prop where
  default_pairs : ∀ pair ∈ target.defSection.entries, Pair pair
  name_cr : ∀ map ∈ target.sectionMap.entries, (13 : UInt8) ∉ map.1
  name_lf : ∀ map ∈ target.sectionMap.entries, (10 : UInt8) ∉ map.1
  pairs : ∀ map ∈ target.sectionMap.entries, ∀ pair ∈ map.2.entries, Pair pair

theorem laid_pairs {pairs : List (Bytes × Bytes)} (h : ∀ pair ∈ pairs, Pair pair) :
    Laid (pairs.flatMap unparsePair) (pairs.map pairLine) := by
  induction pairs with
  | nil => exact .nil
  | cons pair pairs ih =>
    have hrest := ih fun p hp => h p (List.mem_cons_of_mem _ hp)
    have hline := Laid.line (h pair List.mem_cons_self).line hrest
    rw [List.flatMap_cons, List.map_cons, unparsePair]
    simpa [pairLine] using hline

theorem laid_section {section_ : Section} (h : ∀ pair ∈ section_.entries, Pair pair) :
    Laid (unparseSection section_) (section_.entries.map pairLine) := by
  have hsection := (laid_pairs h).append (.blank .nil)
  rwa [List.append_nil] at hsection

theorem laid_sections {maps : List (Bytes × Section)} (hcr : ∀ map ∈ maps, (13 : UInt8) ∉ map.1)
    (hlf : ∀ map ∈ maps, (10 : UInt8) ∉ map.1)
    (hpairs : ∀ map ∈ maps, ∀ pair ∈ map.2.entries, Pair pair) :
    Laid (maps.flatMap fun map => 91 :: (map.1 ++ ([93, 10] ++ unparseSection map.2)))
      (maps.flatMap fun map => sectionLine map.1 :: map.2.entries.map pairLine) := by
  induction maps with
  | nil => exact .nil
  | cons map maps ih =>
    have hmap := List.mem_cons_self (a := map) (l := maps)
    have hrest := ih (fun m hm => hcr m (List.mem_cons_of_mem _ hm))
      (fun m hm => hlf m (List.mem_cons_of_mem _ hm)) (fun m hm => hpairs m (List.mem_cons_of_mem _ hm))
    have hline := Laid.line (sectionLine_line (hcr map hmap) (hlf map hmap))
      (laid_section (hpairs map hmap))
    rw [List.flatMap_cons, List.flatMap_cons]
    apply Laid.append _ hrest
    simpa [sectionLine] using hline

theorem laid_unparse {target : IniConfig} (h : Writable target) :
    Laid (unparse target) (configLines target) :=
  (laid_section h.default_pairs).append (laid_sections h.name_cr h.name_lf h.pairs)

theorem parseLines_pairs {pairs : List (Bytes × Bytes)} (h : ∀ pair ∈ pairs, Pair pair)
    (config : IniConfig) (current : Option Bytes) :
    parseLines (config, current) (pairs.map pairLine) =
      (pairs.foldl (fun c pair => c.emplace current pair.1 pair.2) config, current) := by
  induction pairs generalizing config with
  | nil => rfl
  | cons pair pairs ih =>
    have hpair := h pair List.mem_cons_self
    rw [List.map_cons, parseLines, List.foldl_cons, parseLine_pair hpair, List.foldl_cons]
    exact ih (fun p hp => h p (List.mem_cons_of_mem _ hp)) _

theorem emplace_default (config : IniConfig) (pairs : List (Bytes × Bytes)) :
    pairs.foldl (fun c pair => c.emplace none pair.1 pair.2) config =
      { config with defSection := pairs.foldl (fun m e => m.emplace e.1 e.2) config.defSection } := by
  induction pairs generalizing config with
  | nil => rfl
  | cons pair pairs ih =>
    rw [List.foldl_cons, ih, List.foldl_cons]
    rfl

theorem emplace_last {config : IniConfig} {front : List (Bytes × Section)} {name : Bytes}
    {section_ : Section} (hmap : config.sectionMap.entries = front ++ [(name, section_)])
    (pairs : List (Bytes × Bytes)) :
    (pairs.foldl (fun c pair => c.emplace (some name) pair.1 pair.2) config).defSection =
        config.defSection ∧
      (pairs.foldl (fun c pair => c.emplace (some name) pair.1 pair.2) config).sectionMap.entries =
        front ++ [(name, pairs.foldl (fun m e => m.emplace e.1 e.2) section_)] := by
  induction pairs generalizing config section_ with
  | nil => exact ⟨rfl, hmap⟩
  | cons pair pairs ih =>
    have hmem : (name, section_) ∈ config.sectionMap.entries := by
      rw [hmap]
      exact List.mem_append_right _ (List.mem_singleton_self _)
    have hfind := config.sectionMap.find?_eq_some_of_mem hmem
    have hstep : (config.emplace (some name) pair.1 pair.2).sectionMap.entries =
        front ++ [(name, section_.emplace pair.1 pair.2)] := by
      simp only [IniConfig.emplace, hfind, Option.getD_some]
      exact OrdMap.insert_mid _ hmap
    exact ih hstep

theorem parseLines_sections {maps : List (Bytes × Section)}
    (hpairs : ∀ map ∈ maps, ∀ pair ∈ map.2.entries, Pair pair) {config : IniConfig}
    (hsorted : (config.sectionMap.entries ++ maps).Pairwise fun a b => byteOrder a.1 < byteOrder b.1)
    (current : Option Bytes) :
    let result := (parseLines (config, current)
      (maps.flatMap fun map => sectionLine map.1 :: map.2.entries.map pairLine)).1
    result.defSection = config.defSection ∧
      result.sectionMap.entries = config.sectionMap.entries ++ maps := by
  induction maps generalizing config current with
  | nil => simp [parseLines]
  | cons map maps ih =>
    obtain ⟨name, section_⟩ := map
    let opened : IniConfig := { config with sectionMap := config.sectionMap.emplace name .empty }
    have hopen : opened.sectionMap.entries = config.sectionMap.entries ++ [(name, OrdMap.empty)] := by
      apply OrdMap.emplace_entries
      exact fun e he => (List.pairwise_append.mp hsorted).2.2 e he _ List.mem_cons_self
    have hfill := emplace_last hopen section_.entries
    have hsection : section_.entries.foldl (fun m e => m.emplace e.1 e.2) OrdMap.empty = section_ :=
      OrdMap.ext (OrdMap.foldl_emplace_entries .empty section_.sorted)
    rw [hsection] at hfill
    simp only [List.flatMap_cons, List.cons_append]
    rw [parseLines, List.foldl_cons, List.foldl_append, parseLine_section, ← parseLines, ← parseLines,
      parseLines_pairs (hpairs (name, section_) List.mem_cons_self)]
    have hsorted' : ((section_.entries.foldl (fun c pair => c.emplace (some name) pair.1 pair.2)
        opened).sectionMap.entries ++ maps).Pairwise fun a b => byteOrder a.1 < byteOrder b.1 := by
      rw [hfill.2, List.append_assoc]
      exact hsorted
    have hrest := ih (fun m hm => hpairs m (List.mem_cons_of_mem _ hm)) hsorted' (some name)
    refine ⟨hrest.1.trans hfill.1, hrest.2.trans ?_⟩
    rw [hfill.2, List.append_assoc, List.singleton_append]

/-- `parse` gives back the configuration that `unparse` wrote. -/
theorem parse_unparse {target : IniConfig} (h : Writable target) : parse (unparse target) = target := by
  have hdefault := parseLines_pairs h.default_pairs {} none
  rw [emplace_default] at hdefault
  have hsection : target.defSection.entries.foldl (fun m e => m.emplace e.1 e.2) OrdMap.empty =
      target.defSection :=
    OrdMap.ext (OrdMap.foldl_emplace_entries .empty target.defSection.sorted)
  let config : IniConfig := { defSection := target.defSection }
  have hsorted : (config.sectionMap.entries ++ target.sectionMap.entries).Pairwise
      fun a b => byteOrder a.1 < byteOrder b.1 := target.sectionMap.sorted
  have hmaps := parseLines_sections h.pairs hsorted none
  rw [(laid_unparse h).parse_eq, configLines, parseLines, List.foldl_append, ← parseLines,
    ← parseLines, hdefault]
  dsimp only
  rw [hsection]
  exact IniConfig.ext hmaps.1 (OrdMap.ext hmaps.2)

def sampleConfig : IniConfig where
  defSection := .insert .empty [] (bytes "a=b")
  sectionMap := .insert .empty (bytes "w]") (.insert .empty (bytes "key") [])

theorem parse_unparse_sample : parse (unparse sampleConfig) = sampleConfig := by
  apply parse_unparse
  constructor
  · rintro _ (- | ⟨_, ⟨⟩⟩)
    constructor <;> decide
  · decide
  · decide
  · rintro _ (- | ⟨_, ⟨⟩⟩) _ (- | ⟨_, ⟨⟩⟩)
    constructor <;> decide

example : parse (bytes "a=1\n\n[v]\nb = 2\n#c=3\n\r\n[w]]\n") =
    { defSection := .insert .empty (bytes "a") (bytes "1"),
      sectionMap := .insert (.insert .empty (bytes "v") (.insert .empty (bytes "b ") (bytes " 2")))
        (bytes "w]") .empty } := by decide +kernel

end Sese.Ini
