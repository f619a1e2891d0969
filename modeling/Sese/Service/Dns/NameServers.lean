import Sese.Foundation.Forwarding
import Sese.Net.Dns.Resolver
import Sese.Service.Dns.DnsService

/-!
# Networks of name servers

`Resolver::resolve` asks its name servers, one after another, and a `DnsService` asks with its own
resolver what it has no record of. What comes back through any number of servers is the record of
the first one that has it, and what the servers remember on the way changes no later answer.
-/
namespace Sese

open Foundation Net DnsPackage

/-- The octets that one access shows are those of the other. -/
def Octets.Extends (octet octet' : Octets) : Prop := ∀ i b, octet i = .ok b → octet' i = .ok b

namespace Octets.Extends

variable {octet octet' : Octets} (h : octet.Extends octet')

include h

theorem readBytes {pos n : ℕ} {bs : Bytes} (hread : readBytes octet pos n = .ok bs) :
    readBytes octet' pos n = .ok bs := by
  induction n generalizing pos bs with
  | zero => exact hread
  | succ n ih =>
    rw [Sese.readBytes] at hread ⊢
    obtain ⟨b, hb, hread⟩ := bind_eq_ok.mp hread
    obtain ⟨rest, hrest, hread⟩ := bind_eq_ok.mp hread
    rw [h _ _ hb, ok_bind, ih hrest, ok_bind, hread]

theorem read16 {pos : ℕ} {n : UInt16} (hread : read16 octet pos = .ok n) :
    read16 octet' pos = .ok n := by
  rw [Sese.read16] at hread ⊢
  obtain ⟨bs, hbs, hread⟩ := bind_eq_ok.mp hread
  rw [h.readBytes hbs, ok_bind, hread]

theorem read32 {pos : ℕ} {n : UInt32} (hread : read32 octet pos = .ok n) :
    read32 octet' pos = .ok n := by
  rw [Sese.read32] at hread ⊢
  obtain ⟨bs, hbs, hread⟩ := bind_eq_ok.mp hread
  rw [h.readBytes hbs, ok_bind, hread]

theorem wordsLoop {length fuel offset pos : ℕ} {first : Bool} {text : Bytes} {word : Bytes × ℕ}
    (hread : wordsLoop octet length fuel offset pos first text = .ok word) :
    wordsLoop octet' length fuel offset pos first text = .ok word := by
  induction fuel generalizing offset pos first text word with
  | zero => cases hread
  | succ fuel ih =>
    rw [DnsPackage.wordsLoop] at hread ⊢
    obtain ⟨b, hb, hread⟩ := bind_eq_ok.mp hread
    rw [h _ _ hb, ok_bind]
    split_ifs at hread ⊢
    · exact hread
    · obtain ⟨b', hb', hread⟩ := bind_eq_ok.mp hread
      rw [h _ _ hb', ok_bind]
      split_ifs at hread ⊢
      · exact hread
      · obtain ⟨sub, hsub, hread⟩ := bind_eq_ok.mp hread
        rw [ih hsub, ok_bind]
        exact hread
    · exact hread
    · obtain ⟨label, hlabel, hread⟩ := bind_eq_ok.mp hread
      rw [h.readBytes hlabel, ok_bind]
      exact ih hread

theorem decodeWords {length offset : ℕ} {word : Bytes × ℕ}
    (hread : decodeWords octet length offset = .ok word) :
    decodeWords octet' length offset = .ok word := h.wordsLoop hread

theorem decodeQuestions {length n pos : ℕ} {result : Option (List Question × ℕ)}
    (hread : decodeQuestions octet length n pos = .ok result) :
    decodeQuestions octet' length n pos = .ok result := by
  induction n generalizing pos result with
  | zero => exact hread
  | succ n ih =>
    rw [DnsPackage.decodeQuestions] at hread ⊢
    obtain ⟨word, hword, hread⟩ := bind_eq_ok.mp hread
    rw [h.decodeWords hword, ok_bind]
    dsimp only at hread ⊢
    split_ifs at hread ⊢
    · exact hread
    · obtain ⟨type, htype, hread⟩ := bind_eq_ok.mp hread
      obtain ⟨class_, hclass, hread⟩ := bind_eq_ok.mp hread
      obtain ⟨rest, hrest, hread⟩ := bind_eq_ok.mp hread
      rw [h.read16 htype, ok_bind, h.read16 hclass, ok_bind, ih hrest, ok_bind, hread]

theorem decodeAnswers {length n pos : ℕ} {result : Option (List Answer × ℕ)}
    (hread : decodeAnswers octet length n pos = .ok result) :
    decodeAnswers octet' length n pos = .ok result := by
  induction n generalizing pos result with
  | zero => exact hread
  | succ n ih =>
    rw [DnsPackage.decodeAnswers] at hread ⊢
    obtain ⟨word, hword, hread⟩ := bind_eq_ok.mp hread
    rw [h.decodeWords hword, ok_bind]
    dsimp only at hread ⊢
    split_ifs at hread ⊢
    · exact hread
    · exact hread
    obtain ⟨type, htype, hread⟩ := bind_eq_ok.mp hread
    obtain ⟨class_, hclass, hread⟩ := bind_eq_ok.mp hread
    obtain ⟨ttl, httl, hread⟩ := bind_eq_ok.mp hread
    obtain ⟨data_length, hlength, hread⟩ := bind_eq_ok.mp hread
    rw [h.read16 htype, ok_bind, h.read16 hclass, ok_bind, h.read32 httl, ok_bind, h.read16 hlength,
      ok_bind]
    split_ifs at hread ⊢
    · exact hread
    obtain ⟨data, hdata, hread⟩ := bind_eq_ok.mp hread
    obtain ⟨rest, hrest, hread⟩ := bind_eq_ok.mp hread
    rw [h.readBytes hdata, ok_bind, ih hrest, ok_bind, hread]

theorem decode {length : ℕ} {package : DnsPackage} (hread : decode octet length = .ok (some package)) :
    decode octet' length = .ok (some package) := by
  rw [DnsPackage.decode] at hread ⊢
  split_ifs at hread ⊢
  · cases hread
  obtain ⟨id, hid, hread⟩ := bind_eq_ok.mp hread
  obtain ⟨flags, hflags, hread⟩ := bind_eq_ok.mp hread
  obtain ⟨qdcount, hqd, hread⟩ := bind_eq_ok.mp hread
  obtain ⟨ancount, han, hread⟩ := bind_eq_ok.mp hread
  obtain ⟨nscount, hns, hread⟩ := bind_eq_ok.mp hread
  obtain ⟨arcount, har, hread⟩ := bind_eq_ok.mp hread
  rw [h.read16 hid, ok_bind, h.read16 hflags, ok_bind, h.read16 hqd, ok_bind, h.read16 han, ok_bind,
    h.read16 hns, ok_bind, h.read16 har, ok_bind]
  obtain ⟨questions, hquestions, hread⟩ := andThen_eq_some.mp hread
  obtain ⟨answers, hanswers, hread⟩ := andThen_eq_some.mp hread
  obtain ⟨authorities, hauthorities, hread⟩ := andThen_eq_some.mp hread
  obtain ⟨additionals, hadditionals, hread⟩ := andThen_eq_some.mp hread
  exact andThen_eq_some.mpr ⟨_, h.decodeQuestions hquestions, andThen_eq_some.mpr
    ⟨_, h.decodeAnswers hanswers, andThen_eq_some.mpr ⟨_, h.decodeAnswers hauthorities,
      andThen_eq_some.mpr ⟨_, h.decodeAnswers hadditionals, hread⟩⟩⟩⟩

end Octets.Extends

namespace Service.Dns

open DnsService

theorem extends_octets {buffer datagram : Bytes} (hlen : datagram.length ≤ buffer.length) :
    (DnsPackage.datagram datagram).Extends (octets (overwrite buffer 0 datagram)) := by
  intro i b hb
  have hlength : (overwrite buffer 0 datagram).length = buffer.length := length_overwrite (by omega)
  rw [DnsPackage.datagram] at hb
  by_cases hi : i < datagram.length
  · rw [within_of_lt hi] at hb
    rw [octets, within_of_lt (by omega), ← hb]
    congr 1
    rw [List.getD_eq_getElem?_getD, List.getD_eq_getElem?_getD, getElem?_overwrite (Nat.zero_le _)]
    simp [hi]
  · rw [within_of_le (not_lt.mp hi)] at hb
    cases hb

/-- How a package is sent: its octets are at the start of the buffer, and it is decoded from them in
every buffer of that size. -/
structure Arrives (pkg : DnsPackage) (index : Index) (W : Bytes) : Prop where
  size : W.length ≤ bufferSize
  encode : ∀ buffer : Bytes, buffer.length = bufferSize → ∃ buffer' index',
    encode pkg buffer bufferSize index = .ok (true, W.length, buffer', index') ∧
      load buffer' 0 W.length = .ok W ∧ buffer'.length = bufferSize
  decode : ∀ buffer : Bytes, buffer.length = bufferSize →
    decode (octets (overwrite buffer 0 W)) W.length = .ok (some pkg)

theorem arrives_of_decode {pkg : DnsPackage} (hc : pkg.Complete) (hnone : pkg.additionals = [])
    {index : Index} {bss : List Bytes} {W : Bytes} (hbss : sectionOctets pkg index = .ok bss)
    (hW : W = pkg.header ++ bss.flatten) (hsize : W.length ≤ bufferSize)
    (hdecode : DnsPackage.decode (datagram W) W.length = .ok (some pkg)) : Arrives pkg index W where
  size := hsize
  encode buffer hbuffer := by
    obtain ⟨index', h⟩ := encode_room hc hbss hW (by decide : bufferSize < 2 ^ 64) hsize hbuffer.ge
    have hcounted : countedLength bss = W.length := by
      have htake := (take_counted_iff hbss hW rfl).mpr ⟨hnone, rfl⟩
      have hle := countedLength_le hbss
      rw [← hW] at hle
      rw [← htake, List.length_take, Nat.min_eq_left hle]
    rw [hcounted] at h
    refine ⟨_, index', h, ?_, ?_⟩
    · rw [load_take _ (Nat.le_refl _), List.take_length]
    · rw [List.length_append, List.length_drop, hbuffer]
      omega
  decode buffer hbuffer := (extends_octets (hbuffer.symm ▸ hsize)).decode hdecode

def question (name : Bytes) (type : UInt16) : Question where
  name
  type
  class_ := classIn

/-- The package that `Resolver::resolve` sends. -/
def query (id : UInt16) (name : Bytes) (type : UInt16) : DnsPackage where
  id
  flags := Flags.new.encode
  questions := [question name type]
  answers := []
  authorities := []
  additionals := []

theorem wellFormed_query {id type : UInt16} {name : Bytes} (hname : ValidName name) :
    WellFormed (query id name type) where
  questions := Nat.le_add_left 1 65534
  answers := Nat.zero_le _
  authorities := Nat.zero_le _
  additionals := Nat.zero_le _
  names := by simpa [query, question, DnsPackage.names] using hname
  complete := ⟨List.forall_mem_nil _, List.forall_mem_nil _, List.forall_mem_nil _⟩

theorem length_literalWords {name : Bytes} (hname : ValidName name) :
    (literalWords name).length = name.length + 2 := by
  obtain ⟨ls, hls⟩ := hname
  have hlength := length_joinDots hls.ne_nil
  rw [literalWords, hls.split_eq, List.length_append, ← hlength, ← hls.name]
  rfl

/-- A query is sent without an index if the name is not longer than 494 octets. -/
theorem arrives_query (id : UInt16) {name : Bytes} (type : UInt16) (hname : ValidName name)
    (hlen : name.length ≤ 494) : ∃ W, Arrives (query id name type) .empty W := by
  have hwell : WellFormed (query id name type) := wellFormed_query hname
  obtain ⟨bss, last, bq, br, hbss, hflat, hq, hr⟩ := wire_empty hwell
  have hoctets : sectionOctets (query id name type) .empty = .ok
      ([literalWords name ++ ((question name type).entry.fields ++ []), [], []] ++ [[]]) := rfl
  obtain ⟨hbss', hlast⟩ := List.append_inj' (Except.ok.inj (hbss.symm.trans hoctets)) rfl
  obtain rfl : last = [] := List.singleton_inj.mp hlast
  have hlength : ((query id name type).header ++ (bq ++ br)).length = name.length + 18 := by
    rw [← hflat, hbss']
    simp only [List.flatten_cons, List.flatten_nil, List.append_nil, List.length_append,
      length_header, length_literalWords hname, length_questionFields]
    omega
  have hsize : ((query id name type).header ++ (bq ++ br)).length ≤ bufferSize := by
    rw [hlength, bufferSize]
    omega
  refine ⟨_, arrives_of_decode hwell.complete rfl hbss ?_ hsize ?_⟩
  · rw [List.flatten_append, hflat, List.flatten_singleton, List.append_nil]
  · refine (decode_empty_iff hwell hq hr rfl ?_).mpr ⟨rfl, Nat.zero_le _, List.forall_mem_nil _⟩
    rw [hlength]
    omega

/-- The package that is sent if there is a record for the question. -/
def answered (id : UInt16) (name : Bytes) (type : UInt16) (record : Bytes) : DnsPackage :=
  { emptyResponse (query id name type) with
    questions := [question name type]
    answers := [answerTo (question name type) record] }

section

variable {id type : UInt16} {name record : Bytes}

theorem wellFormed_answered (hname : ValidName name) (hrecord : record.length < 65536) :
    WellFormed (answered id name type record) where
  questions := Nat.le_add_left 1 65534
  answers := Nat.le_add_left 1 65534
  authorities := Nat.zero_le _
  additionals := Nat.zero_le _
  names := by simpa [answered, emptyResponse, answerTo, question, DnsPackage.names] using hname
  complete := by
    refine ⟨?_, List.forall_mem_nil _, List.forall_mem_nil _⟩
    intro a ha
    rw [List.mem_singleton.mp ha]
    exact answerTo_complete hrecord

theorem length_le_labelBytes (ls : List Bytes) : ls.length ≤ (labelBytes ls).length := by
  induction ls with
  | nil => exact Nat.le_refl 0
  | cons l ls ih =>
    rw [labelBytes_cons, List.length_cons, List.length_cons, List.length_append]
    omega

theorem labelCount_le (hname : ValidName name) : labelCount name ≤ name.length + 1 := by
  obtain ⟨ls, hls⟩ := hname
  have hlength := length_joinDots hls.ne_nil
  rw [← hls.name] at hlength
  rw [labelCount, hls.split_eq, hlength]
  exact length_le_labelBytes ls

theorem cut_of_blank (ls : List Bytes) : Index.cut (fun _ => 0) ls = (ls, []) := by
  induction ls with
  | nil => rfl
  | cons l ls ih => rw [Index.cut, if_pos rfl, ih]

theorem cut_of_placed {place : Bytes → UInt16} {ls : List Bytes} (hls : Spells ls name)
    (hplace : place name ≠ 0) : Index.cut place ls = ([], ls) := by
  obtain ⟨l, ls, rfl⟩ := List.exists_cons_of_ne_nil hls.ne_nil
  rw [Index.cut, if_neg (by rwa [← hls.name])]

theorem wireEntries_single {e : Entry} {base : ℕ} {index index' : Index} {octets : Bytes}
    (h : nameBytes index e.name base = .ok (octets, index')) :
    wireEntries [e] base index = .ok (octets ++ (e.fields ++ []), index') := by
  rw [wireEntries, h, ok_bind]
  rfl

theorem labels_answered (hname : ValidName name) (hlen : name.length < 512) :
    ((answered id name type record).names.map labelCount).sum < 65536 := by
  have hcount := labelCount_le hname
  have hsum : ((answered id name type record).names.map labelCount).sum =
      labelCount name + labelCount name := by
    simp [answered, emptyResponse, answerTo, question, DnsPackage.names]
  omega

theorem sectionOctets_answered (hname : ValidName name)
    (hwell : WellFormed (answered id name type record)) (hlen : name.length < 512) :
    ∃ bq br, sectionOctets (answered id name type record) (buildIndex (answered id name type record)) =
        .ok [bq, br, [], []] ∧ bq.length = name.length + 6 ∧ br.length = 12 + record.length := by
  obtain ⟨hfresh, hdistinct, hknows⟩ := buildIndex_knows hwell (labels_answered hname hlen)
  obtain ⟨ls, numbers, hls, hnum⟩ := hknows [⟨name, []⟩]
    (by simp [answered, emptyResponse, answerTo, question, DnsPackage.names]) ⟨name, []⟩
    (List.mem_singleton_self _)
  have hlength := length_joinDots hls.ne_nil
  rw [← hls.name] at hlength
  have hplace : Index.relocate name (.ofNat 12) (fun _ => 0) ls (fun _ => 0) name ≠ 0 := by
    rw [Index.relocate_apply, if_pos, Nat.sub_self]
    · decide
    · rw [cut_of_blank, List.take_of_length_le (length_suffixNames ls).le]
      exact mem_suffixNames.mpr ⟨[], ls, rfl, hls.ne_nil, hls.name⟩
  generalize buildIndex (answered id name type record) = index at hfresh hdistinct hnum ⊢
  have hq : nameBytes index name 12 = .ok (Index.compressed (fun _ => 0) ls,
      index.placed (Index.relocate name (.ofNat 12) (fun _ => 0) ls fun _ => 0)) := by
    rw [← Index.nameBytes_placed hfresh hdistinct hls hnum 12, Index.placed_zero hfresh]
  have hquestion : (Index.compressed (fun _ => 0) ls).length = name.length + 2 := by
    rw [Index.compressed, cut_of_blank, List.length_append, ← hlength]
    rfl
  have hpointer : (Index.compressed
      (Index.relocate name (.ofNat 12) (fun _ => 0) ls fun _ => 0) ls).length = 2 := by
    rw [Index.compressed, cut_of_placed hls hplace, Index.ending, if_neg hls.ne_nil]
    rfl
  refine ⟨Index.compressed (fun _ => 0) ls ++ ((question name type).entry.fields ++ []),
    Index.compressed (Index.relocate name (.ofNat 12) (fun _ => 0) ls fun _ => 0) ls ++
      ((answerTo (question name type) record).entry.fields ++ []), ?_, ?_, ?_⟩
  · rw [sectionOctets]
    change wireSections [[(question name type).entry], [(answerTo (question name type) record).entry],
      [], []] 12 _ = _
    rw [wireSections, wireEntries_single hq, ok_bind]
    dsimp only
    rw [wireSections, wireEntries_single (e := (answerTo (question name type) record).entry)
      (Index.nameBytes_placed hfresh hdistinct hls hnum _), ok_bind]
    rfl
  · rw [List.length_append, List.append_nil, hquestion, length_questionFields]
  · rw [List.length_append, List.append_nil, hpointer]
    have hfields : (answerTo (question name type) record).entry.fields.length = 10 + record.length := by
      rw [Answer.entry, List.length_append, length_answerHead]
      rfl
    omega

theorem arrives_answered (hname : ValidName name) (hlen : name.length + 30 + record.length ≤ bufferSize) :
    ∃ W, Arrives (answered id name type record) (buildIndex (answered id name type record)) W := by
  rw [bufferSize] at hlen
  have hwell : WellFormed (answered id name type record) := wellFormed_answered hname (by omega)
  have haligned : Aligned (answered id name type record) := by
    refine ⟨labels_answered hname (by omega), List.nodup_singleton _, .inl ⟨?_, trivial⟩, rfl⟩
    exact List.mem_singleton_self _
  obtain ⟨bss, last, bq, br, hbss, hflat, hwritten⟩ := wire_buildIndex hwell haligned.labels
  obtain ⟨bq', br', hoctets, hq', hr'⟩ := sectionOctets_answered hname hwell (by omega)
  have hlists : bss ++ [last] = [bq', br', []] ++ [[]] := Except.ok.inj (hbss.symm.trans hoctets)
  obtain ⟨hbss', hlast⟩ := List.append_inj' hlists rfl
  obtain rfl : last = [] := List.singleton_inj.mp hlast
  have hlength : ((answered id name type record).header ++ (bq ++ br)).length =
      name.length + 30 + record.length := by
    rw [← hflat, hbss']
    simp only [List.flatten_cons, List.flatten_nil, List.append_nil, List.length_append, length_header,
      hq', hr']
    omega
  obtain ⟨hq, hr⟩ := hwritten (by omega)
  refine ⟨_, arrives_of_decode hwell.complete rfl hbss ?_ (hlength.trans_le hlen) ?_⟩
  · rw [List.flatten_append, hflat, List.flatten_singleton, List.append_nil]
  · exact haligned.decode hwell hq hr rfl (by omega)

theorem arrives_empty (recv : DnsPackage) :
    ∃ W, Arrives (emptyResponse recv) (buildIndex (emptyResponse recv)) W := by
  have hwell : WellFormed (emptyResponse recv) := by
    refine ⟨Nat.zero_le _, Nat.zero_le _, Nat.zero_le _, Nat.zero_le _, List.forall_mem_nil _, ?_⟩
    exact ⟨List.forall_mem_nil _, List.forall_mem_nil _, List.forall_mem_nil _⟩
  have haligned : Aligned (emptyResponse recv) := ⟨Nat.succ_pos 65535, List.nodup_nil, trivial, rfl⟩
  have hoctets : sectionOctets (emptyResponse recv) (buildIndex (emptyResponse recv)) =
      .ok [[], [], [], []] := rfl
  refine ⟨_, arrives_of_decode hwell.complete rfl hoctets rfl (show 12 ≤ bufferSize by decide) ?_⟩
  exact haligned.decode hwell .nil .nil rfl (show 12 < 16384 by decide)

end

structure Servers (ι G : Type) where
  service : ι → DnsService
  generator : ι → G

abbrev Lookup (ι G : Type) :=
  Bytes → UInt16 → Servers ι G → Except Fault (List IPAddress × Servers ι G)

/-- What a server does with a datagram, and the datagram that it sends back. -/
abbrev Serve (ι G : Type) := ι → Bytes → Servers ι G → Except Fault (Option Bytes × Servers ι G)

section

variable {ι G : Type} [DecidableEq ι] (net : Network ι) (draw : G → UInt16 × G) (stack : Bytes)

/-- `resolve(name_server, hostname, type)` of the server `i`, for the name server `j`. The buffer is
on the stack. Nothing but a reply ends `receive_from`. -/
def resolveAt (serve : Serve ι G) (i j : ι) : Lookup ι G := fun name type s => do
  let drawn := draw (s.generator i)
  let s := { s with generator := Function.update s.generator i drawn.2 }
  let (encoded, length, buffer, _) ← encode (query drawn.1 name type) stack bufferSize .empty
  if encoded then do
    let datagram ← load buffer 0 length
    let (sent, s) ← serve j datagram s
    match sent with
    | none => .error .endlessLoop
    | some reply => do
      let addresses ← Resolver.resolve (octets (overwrite buffer 0 reply)) reply.length drawn.1 type
      .ok (addresses, s)
  else .ok ([], s)

/-- The loop over the name servers in `resolve(hostname, type)`. -/
def resolveAmong (serve : Serve ι G) (i : ι) : List ι → Lookup ι G
  | [] => fun _ _ s => .ok ([], s)
  | j :: rest => fun name type s => do
    let (addresses, s) ← resolveAt draw stack serve i j name type s
    if addresses = [] then resolveAmong serve i rest name type s else .ok (addresses, s)

/-- The calls of `resolve` in `handleByUpstream`, one for every question that is left. -/
def resolveEach (resolve : Lookup ι G) :
    List Question → Servers ι G → Except Fault (List (List IPAddress) × Servers ι G)
  | [], s => .ok ([], s)
  | q :: qs, s => do
    let (addresses, s) ← resolve q.name q.type s
    let (rest, s) ← resolveEach resolve qs s
    .ok (addresses :: rest, s)

/-- A round of `handle` without a callback, with what the own resolver finds. -/
def serve (resolve : ι → Lookup ι G) : Serve ι G := fun j datagram s => do
  let recv ← DnsPackage.decode (octets ((s.service j).receive datagram)) datagram.length
  let questions := match recv with
    | none => []
    | some recv => ((s.service j).handleBySelf recv.questions (emptyResponse recv)).1
  let (found, s) ← resolveEach (resolve j) questions s
  let (sent, service) ←
    (s.service j).handle none (fun n _ _ => found.getD n []) datagram
  .ok (sent.map (·.datagram), { s with service := Function.update s.service j service })

/-- `resolve(hostname, type)` of the server `i`. Who asks in a circle waits for itself. -/
def resolve : ℕ → ι → Lookup ι G
  | 0, _ => fun _ _ _ => .error .endlessLoop
  | fuel + 1, i => resolveAmong draw stack (serve (resolve fuel)) i (net.asks i)

/-- One lookup after another, each of them by some server. -/
def lookups : List (ι × Bytes × UInt16) → Servers ι G →
    Except Fault (List (List IPAddress) × Servers ι G)
  | [], s => .ok ([], s)
  | (i, name, type) :: rest, s => do
    let (addresses, s) ← resolve net draw stack (net.height i + 1) i name type s
    let (found, s) ← lookups rest s
    .ok (addresses :: found, s)

end

section

variable {ι G : Type} {net : Network ι} {s s' s'' : Servers ι G} {name : Bytes} {type : UInt16}

def Servers.own (s : Servers ι G) (name : Bytes) (type : UInt16) (i : ι) : Option Bytes :=
  (s.service i).ownRecord (question name type)

def addressIn (type : UInt16) (record : Bytes) : IPAddress :=
  if type = typeA then .v4 { address := Resolver.octets 4 record }
  else .v6 { address := Resolver.octets 16 record }

def recordLength (type : UInt16) : ℕ :=
  if type = typeA then 4 else if type = typeAAAA then 16 else 0

/-- The name can be spelled, and a reply with a record for it has room in a datagram. -/
structure Fits (name : Bytes) (type : UInt16) : Prop where
  valid : ValidName name
  room : name.length + 30 + recordLength type ≤ bufferSize

def Servers.Ready (s : Servers ι G) : Prop := ∀ i, (s.service i).buffer.length = bufferSize

/-- The servers below a height have kept records that they were told, and the others are as they
were. -/
structure Learned (net : Network ι) (height : ℕ) (s s' : Servers ι G) : Prop where
  ready : s'.Ready
  keeps : ∀ name type, net.Keeps (s.own name type) (s'.own name type)
  above : ∀ i, height ≤ net.height i → s'.service i = s.service i

theorem Learned.refl (h : s.Ready) (n : ℕ) : Learned net n s s := ⟨h, fun _ _ => .refl, fun _ _ => rfl⟩

theorem Learned.trans {n m : ℕ} (h : Learned net n s s') (h' : Learned net m s' s'') (hle : n ≤ m) :
    Learned net m s s'' where
  ready := h'.ready
  keeps name type := (h.keeps name type).trans (h'.keeps name type)
  above i hi := (h'.above i hi).trans (h.above i (hle.trans hi))

theorem Learned.mono {n m : ℕ} (h : Learned net n s s') (hle : n ≤ m) : Learned net m s s' where
  ready := h.ready
  keeps := h.keeps
  above i hi := h.above i (hle.trans hi)

theorem Learned.of_service_eq {n : ℕ} (h : Learned net n s' s'') (hs : s'.service = s.service) :
    Learned net n s s'' := by
  have hown : ∀ name type, s'.own name type = s.own name type := by
    intro name type
    funext i
    rw [Servers.own, hs, Servers.own]
  exact ⟨h.ready, fun name type => hown name type ▸ h.keeps name type, fun i hi => hs ▸ h.above i hi⟩

theorem isRecord_of_own {i : ι} {record : Bytes} (h : s.own name type i = some record) :
    (type = typeA ∨ type = typeAAAA) ∧ record.length = recordLength type := by
  rw [Servers.own, ownRecord] at h
  split_ifs at h with _ hA hAAAA
  · obtain ⟨address, -, rfl⟩ := Option.map_eq_some_iff.mp h
    have htype : type = typeA := hA
    exact ⟨.inl htype, by rw [address.length_octets, recordLength, if_pos htype]⟩
  · obtain ⟨address, -, rfl⟩ := Option.map_eq_some_iff.mp h
    have hnot : ¬ type = typeA := hA
    have htype : type = typeAAAA := hAAAA
    exact ⟨.inr htype, by rw [address.length_octets, recordLength, if_neg hnot, if_pos htype]⟩

theorem toList_octets {n : ℕ} {record : Bytes} (h : record.length = n) :
    (Resolver.octets n record).toList = record := by
  apply List.ext_getElem
  · rw [Vector.length_toList, h]
  · intro i hi hi'
    simp [Resolver.octets, hi']

theorem octets_addressIn {record : Bytes} (htype : type = typeA ∨ type = typeAAAA)
    (h : record.length = recordLength type) : (addressIn type record).octets = record := by
  rw [recordLength] at h
  rcases htype with rfl | rfl
  · exact toList_octets h
  · exact toList_octets h

def replied (id : UInt16) (name : Bytes) (type : UInt16) : Option Bytes → DnsPackage
  | none => emptyResponse (query id name type)
  | some record => answered id name type record

theorem replied_id {id : UInt16} {record : Option Bytes} : (replied id name type record).id = id := by
  cases record with
  | none => rfl
  | some record => rfl

/-- The resolver takes the address out of the reply. -/
theorem resolve_replied {id : UInt16} {record : Option Bytes}
    (hrecord : ∀ r ∈ record, (type = typeA ∨ type = typeAAAA) ∧ r.length = recordLength type)
    {reply buffer : Bytes} (hbuffer : buffer.length = bufferSize)
    (h : Arrives (replied id name type record) (buildIndex (replied id name type record)) reply) :
    Resolver.resolve (octets (overwrite buffer 0 reply)) reply.length id type =
      .ok (record.map (addressIn type)).toList := by
  rw [Resolver.resolve, h.decode buffer hbuffer, ok_bind]
  dsimp only
  rw [if_neg (not_not_intro replied_id)]
  cases record with
  | none => rfl
  | some record =>
    obtain ⟨htype, hlength⟩ := hrecord record rfl
    have hmeasured : ∀ answer ∈ [answerTo (question name type) record], Resolver.Measured answer := by
      intro answer hmem
      rw [List.mem_singleton.mp hmem]
      refine answerTo_complete ?_
      rw [hlength, recordLength]
      split_ifs <;> decide
    have hdata : (answerTo (question name type) record).data_length = .ofNat (recordLength type) := by
      rw [← hlength]
      rfl
    change Resolver.answersLoop type [answerTo (question name type) record] = _
    rw [(Resolver.answersLoop_iff hmeasured).mpr]
    · rcases htype with rfl | rfl
      · rw [List.filterMap_cons, Resolver.addressOf, if_pos ⟨rfl, rfl⟩, if_pos ⟨rfl, hdata⟩]
        rfl
      · rw [List.filterMap_cons, Resolver.addressOf, if_pos ⟨rfl, rfl⟩,
          if_neg fun hA => absurd (show typeAAAA = typeA from hA.1) (by decide), if_pos ⟨rfl, hdata⟩]
        rfl
    · intro answer hmem
      rw [List.mem_singleton.mp hmem]
      rintro ⟨-, -, hmistaken⟩
      rcases htype with rfl | rfl
      · rw [if_neg (by decide), hdata] at hmistaken
        exact absurd hmistaken (by decide)
      · rw [if_pos (show typeAAAA = typeAAAA from rfl), hdata] at hmistaken
        exact hmistaken.2 rfl

theorem arrives_replied (id : UInt16) (hfits : Fits name type) {record : Option Bytes}
    (hrecord : ∀ r ∈ record, r.length = recordLength type) :
    ∃ W, Arrives (replied id name type record) (buildIndex (replied id name type record)) W := by
  cases record with
  | none => exact arrives_empty _
  | some record => exact arrives_answered hfits.valid ((hrecord record rfl).symm ▸ hfits.room)

theorem reply_of_arrives {response : Response} (hown : response.handled = false) {W : Bytes}
    (h : Arrives response.send (buildIndex response.send) W) (datagram : Bytes) {buffer : Bytes}
    (hbuffer : buffer.length = bufferSize) :
    ∃ buffer', DnsService.reply response datagram buffer =
      .ok (some ⟨true, W⟩, { response.service with buffer := buffer' }) ∧ buffer'.length = bufferSize := by
  obtain ⟨buffer', index', hencode, hload, hlength⟩ := h.encode buffer hbuffer
  have hcapacity : capacity response datagram = bufferSize := by rw [capacity, hown]; rfl
  refine ⟨buffer', ?_, hlength⟩
  rw [reply_of_true (hcapacity.symm ▸ hencode), hload, ok_bind]

theorem respond_eq {service : DnsService} {recv send : DnsPackage} {questions : List DnsPackage.Question}
    (h : service.handleBySelf recv.questions (emptyResponse recv) = (questions, send)) (resolve : Resolver) :
    service.respond none resolve recv = ⟨false, (handleByUpstream resolve 0 questions send service).1,
      (handleByUpstream resolve 0 questions send service).2⟩ := by
  change (⟨false, (handleByUpstream resolve 0 (service.handleBySelf recv.questions (emptyResponse recv)).1
    (service.handleBySelf recv.questions (emptyResponse recv)).2 service).1,
    (handleByUpstream resolve 0 (service.handleBySelf recv.questions (emptyResponse recv)).1
      (service.handleBySelf recv.questions (emptyResponse recv)).2 service).2⟩ : Response) = _
  rw [h]

theorem respond_own {service : DnsService} {record : Bytes}
    (h : service.ownRecord (question name type) = some record) (id : UInt16) (resolve : Resolver) :
    service.respond none resolve (query id name type) =
      ⟨false, replied id name type (some record), service⟩ := by
  have hself : service.handleBySelf [question name type] (emptyResponse (query id name type)) =
      ([], replied id name type (some record)) := by
    rw [handleBySelf, h]
    rfl
  rw [respond_eq hself]
  rfl

theorem respond_told {service : DnsService} (h : service.ownRecord (question name type) = none)
    (id : UInt16) {resolve : Resolver} {found : Option IPAddress}
    (hfound : resolve 0 name type = found.toList) :
    service.respond none resolve (query id name type) =
      ⟨false, replied id name type (found.map IPAddress.octets),
        found.elim service (service.remember name)⟩ := by
  have hself : service.handleBySelf [question name type] (emptyResponse (query id name type)) =
      ([question name type], emptyResponse (query id name type)) := by
    rw [handleBySelf, h]
    rfl
  have hasked : resolve 0 (question name type).name (question name type).type = found.toList := hfound
  rw [respond_eq hself, handleByUpstream, hasked]
  cases found with
  | none => rfl
  | some ip => rfl

theorem ownRecord_remember (service : DnsService) (name : Bytes) {record : Bytes}
    (htype : type = typeA ∨ type = typeAAAA) (hrecord : record.length = recordLength type)
    (name' : Bytes) (type' : UInt16) :
    (service.remember name (addressIn type record)).ownRecord (question name' type') =
      if name' = name ∧ type' = type then some record else service.ownRecord (question name' type') := by
  have hoctets := octets_addressIn htype hrecord
  rcases htype with rfl | rfl
  · by_cases htype' : type' = typeA
    · subst htype'
      have hold : service.ownRecord (question name' typeA) = (service.v4map name').map (·.octets) := rfl
      have hnew : (service.remember name (addressIn typeA record)).ownRecord
          (question name' typeA) = (Function.update service.v4map name (some
            { address := Resolver.octets 4 record }) name').map (·.octets) := rfl
      rw [hold, hnew]
      by_cases hname : name' = name
      · subst hname
        rw [Function.update_self, if_pos ⟨rfl, rfl⟩]
        exact congrArg some hoctets
      · rw [Function.update_of_ne hname, if_neg fun h => hname h.1]
    · have hother : ¬ (question name' type').type = typeA := htype'
      rw [if_neg fun h => htype' h.2, ownRecord, ownRecord, if_neg hother, if_neg hother]
      rfl
  · by_cases htype' : type' = typeAAAA
    · subst htype'
      have hold : service.ownRecord (question name' typeAAAA) = (service.v6map name').map (·.octets) := rfl
      have hnew : (service.remember name (addressIn typeAAAA record)).ownRecord
          (question name' typeAAAA) = (Function.update service.v6map name (some
            { address := Resolver.octets 16 record }) name').map (·.octets) := rfl
      rw [hold, hnew]
      by_cases hname : name' = name
      · subst hname
        rw [Function.update_self, if_pos ⟨rfl, rfl⟩]
        exact congrArg some hoctets
      · rw [Function.update_of_ne hname, if_neg fun h => hname h.1]
    · have hother : ¬ (question name' type').type = typeAAAA := htype'
      rw [if_neg fun h => htype' h.2, ownRecord, ownRecord, if_neg hother, if_neg hother]
      rfl

/-- The lookup of the server `i` finds what `i` is told. -/
def Resolves (net : Network ι) (i : ι) (lookup : Lookup ι G) : Prop :=
  ∀ (name : Bytes) (type : UInt16) (s : Servers ι G), Fits name type → s.Ready →
    ∃ s', lookup name type s =
        .ok (((net.told (s.own name type) i).map (addressIn type)).toList, s') ∧
      Learned net (net.height i) s s'

/-- The server `j` sends back what it knows or is told. -/
def Serves (net : Network ι) (j : ι) (serve : Serve ι G) : Prop :=
  ∀ (id : UInt16) (name : Bytes) (type : UInt16) (datagram : Bytes) (s : Servers ι G),
    Fits name type → s.Ready → Arrives (query id name type) .empty datagram →
    ∃ reply s', serve j datagram s = .ok (some reply, s') ∧ Learned net (net.height j + 1) s s' ∧
      Arrives (replied id name type (net.known (s.own name type) j))
        (buildIndex (replied id name type (net.known (s.own name type) j))) reply

variable [DecidableEq ι]

/-- A server may change, if it keeps its records and those that it was told. -/
theorem Learned.update {j : ι} (h : Learned net (net.height j) s s') {service : DnsService}
    (hbuffer : service.buffer.length = bufferSize)
    (hkeeps : ∀ name type, service.ownRecord (question name type) = s'.own name type j ∨
      service.ownRecord (question name type) = net.known (s.own name type) j) :
    Learned net (net.height j + 1) s { s' with service := Function.update s'.service j service } where
  ready := by
    intro i
    dsimp only
    by_cases hi : i = j
    · subst hi
      rwa [Function.update_self]
    · rw [Function.update_of_ne hi]
      exact h.ready i
  keeps := by
    intro name type i
    rw [Servers.own]
    dsimp only
    by_cases hi : i = j
    · subst hi
      rw [Function.update_self]
      rcases hkeeps name type with hsame | hkept
      · rw [hsame]
        exact h.keeps name type i
      · exact .inr hkept
    · rw [Function.update_of_ne hi]
      exact h.keeps name type i
  above := by
    intro i hi
    dsimp only
    have hne : i ≠ j := by
      rintro rfl
      omega
    rw [Function.update_of_ne hne]
    exact h.above i (by omega)

theorem serve_query {j : ι} {resolve : ι → Lookup ι G} {id : UInt16} {datagram : Bytes}
    (hready : s.Ready) (hquery : Arrives (query id name type) .empty datagram)
    {found : List (List IPAddress)}
    (hfound : resolveEach (resolve j) ((s.service j).handleBySelf [question name type]
      (emptyResponse (query id name type))).1 s = .ok (found, s'))
    (hsame : s'.service j = s.service j) {send : DnsPackage} {service : DnsService}
    (hrespond : (s.service j).respond none (fun n _ _ => found.getD n [])
      (query id name type) = ⟨false, send, service⟩) {W : Bytes} (hW : Arrives send (buildIndex send) W) :
    ∃ buffer : Bytes, buffer.length = bufferSize ∧ serve resolve j datagram s =
      .ok (some W, { s' with service := Function.update s'.service j { service with buffer } }) := by
  have hdecode : DnsPackage.decode (octets ((s.service j).receive datagram)) datagram.length =
      .ok (some (query id name type)) := hquery.decode _ (hready j)
  have hbuffer : ((s.service j).receive datagram).length = bufferSize := by
    have hsize := hquery.size
    rw [← hready j] at hsize ⊢
    exact length_overwrite (by omega)
  have harrives : Arrives ((s.service j).respond none (fun n _ _ => found.getD n [])
      (query id name type)).send (buildIndex ((s.service j).respond none
        (fun n _ _ => found.getD n []) (query id name type)).send) W := by
    rw [hrespond]
    exact hW
  obtain ⟨buffer, hreply, hlength⟩ := reply_of_arrives (by rw [hrespond]) harrives datagram hbuffer
  refine ⟨buffer, hlength, ?_⟩
  rw [serve, hdecode, ok_bind]
  dsimp only
  change resolveEach (resolve j) ((s.service j).handleBySelf [question name type]
    (emptyResponse (query id name type))).1 s >>= _ = _
  rw [hfound, ok_bind]
  dsimp only
  rw [hsame, handle, hdecode, ok_bind]
  dsimp only
  rw [hreply, ok_bind, hrespond]
  rfl

/-- If the resolver of a server finds what the server is told, the server sends back what it knows. -/
theorem serves_of_resolves {j : ι} {resolve : ι → Lookup ι G} (h : Resolves net j (resolve j)) :
    Serves net j (serve resolve) := by
  intro id name type datagram s hfits hready hquery
  have hrecord : ∀ r ∈ net.known (s.own name type) j,
      (type = typeA ∨ type = typeAAAA) ∧ r.length = recordLength type := by
    intro r hr
    obtain ⟨k, hk⟩ := Network.exists_own hr
    exact isRecord_of_own hk
  obtain ⟨W, hW⟩ := arrives_replied id hfits fun r hr => (hrecord r hr).2
  cases hown : s.own name type j with
  | some record =>
    rw [Network.known_of_own hown] at hW ⊢
    have hself : ((s.service j).handleBySelf [question name type]
        (emptyResponse (query id name type))).1 = [] := by
      rw [handleBySelf, show (s.service j).ownRecord (question name type) = some record from hown]
      rfl
    have hfound : resolveEach (resolve j) ((s.service j).handleBySelf [question name type]
        (emptyResponse (query id name type))).1 s = .ok ([], s) := by
      rw [hself]
      rfl
    obtain ⟨buffer, hbuffer, hserve⟩ := serve_query hready hquery hfound rfl (respond_own hown id _) hW
    exact ⟨W, _, hserve, (Learned.refl hready _).update hbuffer fun _ _ => .inl rfl, hW⟩
  | none =>
    obtain ⟨s₁, hresolve, hlearned⟩ := h name type s hfits hready
    rw [Network.known_of_not_own hown] at hrecord hW ⊢
    have hself : ((s.service j).handleBySelf [question name type]
        (emptyResponse (query id name type))).1 = [question name type] := by
      rw [handleBySelf, show (s.service j).ownRecord (question name type) = none from hown]
      rfl
    have hsame : s₁.service j = s.service j := hlearned.above j (Nat.le_refl _)
    have hold : ∀ name' type', s₁.own name' type' j =
        (s.service j).ownRecord (question name' type') := by
      intro name' type'
      rw [Servers.own, hsame]
    have hfound : resolveEach (resolve j) ((s.service j).handleBySelf [question name type]
        (emptyResponse (query id name type))).1 s =
          .ok ([((net.told (s.own name type) j).map (addressIn type)).toList], s₁) := by
      rw [hself, resolveEach]
      change (resolve j name type s >>= _) = _
      rw [hresolve, ok_bind]
      rfl
    have hknown : net.known (s.own name type) j = net.told (s.own name type) j :=
      Network.known_of_not_own hown
    cases htold : net.told (s.own name type) j with
    | none =>
      rw [htold] at hfound hW
      obtain ⟨buffer, hbuffer, hserve⟩ := serve_query hready hquery hfound hsame
        (respond_told hown id (show _ = Option.toList none from rfl)) hW
      refine ⟨W, _, hserve, hlearned.update hbuffer ?_, hW⟩
      intro name' type'
      exact .inl (hold name' type').symm
    | some record =>
      rw [htold] at hfound hW hknown
      obtain ⟨htype, hlength⟩ := hrecord record htold
      have hrespond : (s.service j).respond none
          (fun n _ _ => [[addressIn type record]].getD n []) (query id name type) =
          ⟨false, replied id name type (some record),
            (s.service j).remember name (addressIn type record)⟩ := by
        rw [respond_told hown id (show _ = (some (addressIn type record)).toList from rfl),
          Option.map_some, octets_addressIn htype hlength]
        rfl
      obtain ⟨buffer, hbuffer, hserve⟩ := serve_query hready hquery hfound hsame hrespond hW
      refine ⟨W, _, hserve, hlearned.update hbuffer ?_, hW⟩
      intro name' type'
      have hremember := ownRecord_remember (s.service j) name htype hlength name' type'
      by_cases hkey : name' = name ∧ type' = type
      · rw [if_pos hkey] at hremember
        obtain ⟨rfl, rfl⟩ := hkey
        exact .inr (hremember.trans hknown.symm)
      · rw [if_neg hkey] at hremember
        exact .inl (hremember.trans (hold name' type').symm)

variable (draw : G → UInt16 × G) {stack : Bytes} (hstack : stack.length = bufferSize)

include hstack

/-- Who asks a server finds what the server knows or is told. -/
theorem resolveAt_of_serves {serve : Serve ι G} {i j : ι} (h : Serves net j serve)
    (hfits : Fits name type) (hready : s.Ready) :
    ∃ s', resolveAt draw stack serve i j name type s =
        .ok (((net.known (s.own name type) j).map (addressIn type)).toList, s') ∧
      Learned net (net.height j + 1) s s' := by
  have hlen : name.length ≤ 494 := by
    have hroom := hfits.room
    rw [bufferSize] at hroom
    omega
  obtain ⟨datagram, hquery⟩ := arrives_query (draw (s.generator i)).1 type hfits.valid hlen
  obtain ⟨buffer, index, hencode, hload, hbuffer⟩ := hquery.encode stack hstack
  obtain ⟨reply, s', hserve, hlearned, hreply⟩ := h (draw (s.generator i)).1 name type datagram
    { s with generator := Function.update s.generator i (draw (s.generator i)).2 } hfits hready hquery
  have hrecord : ∀ r ∈ net.known (s.own name type) j,
      (type = typeA ∨ type = typeAAAA) ∧ r.length = recordLength type := by
    intro r hr
    obtain ⟨k, hk⟩ := Network.exists_own hr
    exact isRecord_of_own hk
  refine ⟨s', ?_, hlearned.of_service_eq rfl⟩
  rw [resolveAt]
  dsimp only
  rw [hencode, ok_bind]
  dsimp only
  rw [if_pos rfl, hload, ok_bind, hserve, ok_bind]
  dsimp only
  rw [resolve_replied hrecord hbuffer hreply, ok_bind]

/-- The first server that knows something or is told is the last that is asked. -/
theorem resolveAmong_of_serves {serve : Serve ι G} {i : ι} {js : List ι}
    (h : ∀ j ∈ js, Serves net j serve ∧ net.height j < net.height i) (hfits : Fits name type)
    (hready : s.Ready) :
    ∃ s', resolveAmong draw stack serve i js name type s =
        .ok (((js.findSome? (net.known (s.own name type))).map (addressIn type)).toList, s') ∧
      Learned net (net.height i) s s' := by
  induction js generalizing s with
  | nil => exact ⟨s, rfl, .refl hready _⟩
  | cons j js ih =>
    obtain ⟨⟨hserves, hlower⟩, hrest⟩ := List.forall_mem_cons.mp h
    obtain ⟨s₁, hat, hlearned⟩ := resolveAt_of_serves draw hstack (i := i) hserves hfits hready
    rw [resolveAmong]
    change ∃ s', (resolveAt draw stack serve i j name type s >>= _) = _ ∧ _
    rw [hat, ok_bind, List.findSome?_cons]
    cases net.known (s.own name type) j with
    | some record => exact ⟨s₁, rfl, hlearned.mono hlower⟩
    | none =>
      obtain ⟨s₂, hamong, hlearned'⟩ := ih hrest hlearned.ready
      refine ⟨s₂, ?_, hlearned.trans hlearned' hlower⟩
      have hsame : js.findSome? (net.known (s₁.own name type)) =
          js.findSome? (net.known (s.own name type)) :=
        Network.findSome?_congr fun k _ => (hlearned.keeps name type).known_eq k
      rw [← hsame]
      exact hamong

theorem resolves (fuel : ℕ) (i : ι) (hfuel : net.height i < fuel) :
    Resolves net i (resolve net draw stack fuel i) := by
  induction fuel generalizing i with
  | zero => exact absurd hfuel (Nat.not_lt_zero _)
  | succ fuel ih =>
    intro name type s hfits hready
    refine resolveAmong_of_serves draw hstack ?_ hfits hready
    intro j hj
    have hlower := net.lower i j hj
    exact ⟨serves_of_resolves (ih j (by omega)), hlower⟩

/-- In every run of lookups all of them return, and each of them finds the record that was the
nearest one at the start. What the servers keep does not change it. -/
theorem lookups_find_nearest (net : Network ι) {s : Servers ι G} (hready : s.Ready)
    {requests : List (ι × Bytes × UInt16)} (hfits : ∀ r ∈ requests, Fits r.2.1 r.2.2) :
    ∃ s', lookups net draw stack requests s =
        .ok (requests.map fun r => ((net.told (s.own r.2.1 r.2.2) r.1).map (addressIn r.2.2)).toList, s') ∧
      s'.Ready ∧ ∀ name type, net.Keeps (s.own name type) (s'.own name type) := by
  induction requests generalizing s with
  | nil => exact ⟨s, rfl, hready, fun _ _ => .refl⟩
  | cons r requests ih =>
    obtain ⟨i, name, type⟩ := r
    obtain ⟨hfirst, hrest⟩ := List.forall_mem_cons.mp hfits
    obtain ⟨s₁, hresolve, hlearned⟩ := resolves draw hstack _ i (Nat.lt_succ_self _) name type s hfirst hready
    obtain ⟨s₂, hlookups, hready₂, hkeeps⟩ := ih hlearned.ready hrest
    refine ⟨s₂, ?_, hready₂, fun name type => (hlearned.keeps name type).trans (hkeeps name type)⟩
    have hsame : ∀ (r : ι × Bytes × UInt16), net.told (s₁.own r.2.1 r.2.2) r.1 =
        net.told (s.own r.2.1 r.2.2) r.1 := fun r => (hlearned.keeps r.2.1 r.2.2).told_eq r.1
    simp only [hsame] at hlookups
    rw [lookups, hresolve, ok_bind]
    dsimp only
    rw [hlookups, ok_bind, List.map_cons]

end

def forwarder : Network Bool where
  asks i := if i then [false] else []
  height i := i.toNat
  lower := by decide

/-- Only the other one has the address of `a`. -/
def hostA : Servers Bool Unit where
  service i := if i then freshService
    else { freshService with
      v4map := fun name => if name = [97] then some { address := #v[10, 0, 0, 1] } else none }
  generator _ := ()

theorem lookups_find_nearest_hostA :
    ∃ s', lookups forwarder (fun _ => (7, ())) freshService.buffer
        [(true, [97], typeA), (true, [97], typeA), (true, [98], typeA)] hostA =
      .ok ([[.v4 { address := #v[10, 0, 0, 1] }], [.v4 { address := #v[10, 0, 0, 1] }], []], s') := by
  have hready : hostA.Ready := by
    intro i
    cases i
    · exact List.length_replicate
    · exact List.length_replicate
  have hvalid : ∀ b : UInt8, b ≠ 0 → b ≠ 46 → ValidName [b] := by
    intro b hzero hdot
    refine ⟨[[b]], List.cons_ne_nil _ _, ?_, rfl⟩
    intro l hl
    rw [List.mem_singleton.mp hl]
    exact ⟨Nat.one_pos, Nat.le_add_left 1 62, by simpa using hzero.symm, by simpa using hdot.symm⟩
  have hfits : ∀ r ∈ [(true, ([97] : Bytes), typeA), (true, [97], typeA), (true, [98], typeA)],
      Fits r.2.1 r.2.2 := by
    have hfitsA : Fits [97] typeA := ⟨hvalid 97 (by decide) (by decide), by decide⟩
    have hfitsB : Fits [98] typeA := ⟨hvalid 98 (by decide) (by decide), by decide⟩
    simpa only [List.forall_mem_cons] using ⟨hfitsA, hfitsA, hfitsB, List.forall_mem_nil _⟩
  obtain ⟨s', h, -⟩ := lookups_find_nearest (fun _ => (7, ())) List.length_replicate forwarder hready hfits
  exact ⟨s', h⟩

end Service.Dns

end Sese
