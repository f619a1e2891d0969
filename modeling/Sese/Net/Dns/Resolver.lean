import Sese.Net.Addresses
import Sese.Net.Dns.RoundTrip

/-!
# What the resolver takes from a reply

The part of `Resolver::resolve` behind the datagram that is received: the package is decoded, its
identifier is compared with that of the question, and the addresses are copied out of the answers.
-/
namespace Sese

open Foundation Net DnsPackage

namespace Resolver

/-- The first `n` octets. -/
def octets (n : ℕ) (data : Bytes) : Vector UInt8 n := Vector.ofFn fun i => data.getD i 0

/-- `memcpy` of `n` octets from the data of an answer. -/
def copyOctets (n : ℕ) (data : Bytes) : Except Fault (Vector UInt8 n) :=
  if n ≤ data.length then .ok (octets n data) else .error .overread

/-- The body of the loop over the answers. -/
def answerAddress (type : UInt16) (answer : Answer) : Except Fault (Option IPAddress) :=
  if answer.type ≠ type ∨ answer.data_length = 0 ∨ answer.class_ ≠ classIn then .ok none
  else if answer.type = typeA ∧ answer.data_length = 4 then do
    let address ← copyOctets 4 answer.data
    .ok (some (.v4 { address }))
  else if answer.type = typeAAAA ∨ answer.data_length = 16 then do
    let address ← copyOctets 16 answer.data
    .ok (some (.v6 { address }))
  else .ok none

def answersLoop (type : UInt16) : List Answer → Except Fault (List IPAddress)
  | [] => .ok []
  | answer :: rest => do
    let address ← answerAddress type answer
    let result ← answersLoop type rest
    .ok (address.toList ++ result)

/-- `resolve` from the datagram on that answers the package `id`. -/
def resolve (octet : Octets) (length : ℕ) (id type : UInt16) : Except Fault (List IPAddress) := do
  match ← DnsPackage.decode octet length with
  | none => .ok []
  | some package => if package.id ≠ id then .ok [] else answersLoop type package.answers

/-- The address that an answer gives to who asks for a type. -/
def addressOf (type : UInt16) (answer : Answer) : Option IPAddress :=
  if answer.class_ = classIn ∧ answer.type = type then
    if answer.type = typeA ∧ answer.data_length = 4 then some (.v4 { address := octets 4 answer.data })
    else if answer.type = typeAAAA ∧ answer.data_length = 16 then
      some (.v6 { address := octets 16 answer.data })
    else none
  else none

/-- An address of 16 octets is read, and the answer is no AAAA record that has as many. -/
def Mistaken (type : UInt16) (answer : Answer) : Prop :=
  answer.class_ = classIn ∧ answer.type = type ∧
    if type = typeAAAA then answer.data_length ≠ 0 ∧ answer.data_length ≠ 16
    else answer.data_length = 16

instance (type : UInt16) (answer : Answer) : Decidable (Mistaken type answer) := by
  unfold Mistaken
  infer_instance

/-- The data of an answer that is decoded is as long as the answer says. -/
def Measured (answer : Answer) : Prop := answer.data.length = answer.data_length.toNat

theorem length_readBytes {octet : Octets} {pos n : ℕ} {data : Bytes}
    (h : readBytes octet pos n = .ok data) : data.length = n := by
  induction n generalizing pos data with
  | zero =>
    cases h
    rfl
  | succ n ih =>
    rw [readBytes] at h
    obtain ⟨b, -, h⟩ := bind_eq_ok.mp h
    obtain ⟨rest, hrest, h⟩ := bind_eq_ok.mp h
    cases h
    rw [List.length_cons, ih hrest]

theorem measured_decodeAnswers {octet : Octets} {length n pos p : ℕ} {answers : List Answer}
    (h : decodeAnswers octet length n pos = .ok (some (answers, p))) :
    ∀ answer ∈ answers, Measured answer := by
  induction n generalizing pos answers with
  | zero =>
    cases h
    simp
  | succ n ih =>
    rw [decodeAnswers] at h
    obtain ⟨⟨name, e⟩, -, h⟩ := bind_eq_ok.mp h
    dsimp only at h
    split_ifs at h
    · cases h
    · cases h
    obtain ⟨type, -, h⟩ := bind_eq_ok.mp h
    obtain ⟨class_, -, h⟩ := bind_eq_ok.mp h
    obtain ⟨ttl, -, h⟩ := bind_eq_ok.mp h
    obtain ⟨data_length, -, h⟩ := bind_eq_ok.mp h
    split_ifs at h
    · cases h
    obtain ⟨data, hdata, h⟩ := bind_eq_ok.mp h
    obtain ⟨rest, hrest, h⟩ := bind_eq_ok.mp h
    cases rest with
    | none => cases h
    | some rest =>
      cases h
      exact List.forall_mem_cons.mpr ⟨length_readBytes hdata, ih hrest⟩

theorem measured_decode {octet : Octets} {length : ℕ} {package : DnsPackage}
    (h : decode octet length = .ok (some package)) : ∀ answer ∈ package.answers, Measured answer := by
  rw [decode] at h
  split_ifs at h
  · cases h
  obtain ⟨id, -, h⟩ := bind_eq_ok.mp h
  obtain ⟨flags, -, h⟩ := bind_eq_ok.mp h
  obtain ⟨qdcount, -, h⟩ := bind_eq_ok.mp h
  obtain ⟨ancount, -, h⟩ := bind_eq_ok.mp h
  obtain ⟨nscount, -, h⟩ := bind_eq_ok.mp h
  obtain ⟨arcount, -, h⟩ := bind_eq_ok.mp h
  obtain ⟨⟨questions, p⟩, -, h⟩ := andThen_eq_some.mp h
  obtain ⟨⟨answers, p₁⟩, hanswers, h⟩ := andThen_eq_some.mp h
  obtain ⟨⟨authorities, p₂⟩, -, h⟩ := andThen_eq_some.mp h
  obtain ⟨⟨additionals, p₃⟩, -, h⟩ := andThen_eq_some.mp h
  cases h
  exact measured_decodeAnswers hanswers

variable {type : UInt16} {answer : Answer} {answers : List Answer}

theorem copyOctets_of_measured (hdata : Measured answer) {n : ℕ}
    (hn : n ≤ answer.data_length.toNat) : copyOctets n answer.data = .ok (octets n answer.data) :=
  if_pos (hn.trans_eq hdata.symm)

theorem answerAddress_of_not_mistaken (hdata : Measured answer) (h : ¬ Mistaken type answer) :
    answerAddress type answer = .ok (addressOf type answer) := by
  rw [answerAddress, addressOf]
  by_cases hskip : answer.type ≠ type ∨ answer.data_length = 0 ∨ answer.class_ ≠ classIn
  · rw [if_pos hskip]
    rcases hskip with htype | hzero | hclass
    · rw [if_neg fun hasked => htype hasked.2]
    · simp [hzero]
    · rw [if_neg fun hasked => hclass hasked.1]
  · have hasked : answer.class_ = classIn ∧ answer.type = type := by tauto
    rw [if_neg hskip, if_pos hasked]
    by_cases hA : answer.type = typeA ∧ answer.data_length = 4
    · rw [if_pos hA, if_pos hA, copyOctets_of_measured hdata (by rw [hA.2]; decide), ok_bind]
    · rw [if_neg hA, if_neg hA]
      by_cases hAAAA : answer.type = typeAAAA ∧ answer.data_length = 16
      · rw [if_pos (.inl hAAAA.1), if_pos hAAAA,
          copyOctets_of_measured hdata (by rw [hAAAA.2]; decide), ok_bind]
      · have hneither : ¬ (answer.type = typeAAAA ∨ answer.data_length = 16) := by
          rintro (htype | hlength)
          · refine h ⟨hasked.1, hasked.2, ?_⟩
            rw [if_pos (hasked.2.symm.trans htype)]
            exact ⟨fun hzero => hskip (.inr (.inl hzero)), fun hlength => hAAAA ⟨htype, hlength⟩⟩
          · refine h ⟨hasked.1, hasked.2, ?_⟩
            rw [if_neg fun htype => hAAAA ⟨hasked.2.trans htype, hlength⟩]
            exact hlength
        rw [if_neg hneither, if_neg hAAAA]

/-- There is an address too many, if the data are not too short for one. -/
theorem answerAddress_of_mistaken {result : Option IPAddress} (h : Mistaken type answer)
    (hresult : answerAddress type answer = .ok result) :
    (∃ address, result = some address) ∧ addressOf type answer = none := by
  obtain ⟨hclass, htype, hlength⟩ := h
  have hwrong : answer.data_length ≠ 0 ∧ ¬ (answer.type = typeA ∧ answer.data_length = 4) ∧
      ¬ (answer.type = typeAAAA ∧ answer.data_length = 16) ∧
      (answer.type = typeAAAA ∨ answer.data_length = 16) := by
    rw [htype]
    split_ifs at hlength with hAAAA
    · subst hAAAA
      exact ⟨hlength.1, fun hA => absurd hA.1 (by decide), fun h => hlength.2 h.2, .inl rfl⟩
    · rw [hlength]
      exact ⟨by decide, fun hA => absurd hA.2 (by decide), fun h => hAAAA h.1, .inr rfl⟩
  obtain ⟨hzero, hA, hAAAA, hread⟩ := hwrong
  constructor
  · rw [answerAddress, if_neg (by simp [htype, hzero, hclass]), if_neg hA, if_pos hread] at hresult
    obtain ⟨address, -, hresult⟩ := bind_eq_ok.mp hresult
    cases hresult
    exact ⟨_, rfl⟩
  · rw [addressOf, if_pos ⟨hclass, htype⟩, if_neg hA, if_neg hAAAA]

/-- What is returned is at least as long as what was asked for, and longer if an answer was
mistaken for an address. -/
theorem length_answersLoop (hdata : ∀ answer ∈ answers, Measured answer) {result : List IPAddress}
    (h : answersLoop type answers = .ok result) :
    (answers.filterMap (addressOf type)).length +
      (if ∃ answer ∈ answers, Mistaken type answer then 1 else 0) ≤ result.length := by
  induction answers generalizing result with
  | nil => simp
  | cons answer answers ih =>
    obtain ⟨hhead, htail⟩ := List.forall_mem_cons.mp hdata
    rw [answersLoop] at h
    obtain ⟨address, haddress, h⟩ := bind_eq_ok.mp h
    obtain ⟨rest, hrest, h⟩ := bind_eq_ok.mp h
    cases h
    have hih := ih htail hrest
    rw [List.filterMap_cons, List.length_append]
    by_cases hmistaken : Mistaken type answer
    · obtain ⟨⟨found, rfl⟩, hnone⟩ := answerAddress_of_mistaken hmistaken haddress
      rw [hnone, if_pos ⟨answer, List.mem_cons_self, hmistaken⟩]
      dsimp only [Option.toList, List.length_singleton]
      omega
    · rw [answerAddress_of_not_mistaken hhead hmistaken] at haddress
      cases haddress
      have hmore : (∃ a ∈ answer :: answers, Mistaken type a) ↔ ∃ a ∈ answers, Mistaken type a := by
        simp [hmistaken]
      simp only [hmore]
      cases addressOf type answer with
      | none => simpa using hih
      | some address =>
        dsimp only [Option.toList, List.length_singleton, List.length_cons]
        omega

theorem answersLoop_iff (hdata : ∀ answer ∈ answers, Measured answer) :
    answersLoop type answers = .ok (answers.filterMap (addressOf type)) ↔
      ∀ answer ∈ answers, ¬ Mistaken type answer := by
  constructor
  · intro h answer hmem hmistaken
    have hlength := length_answersLoop hdata h
    rw [if_pos ⟨answer, hmem, hmistaken⟩] at hlength
    omega
  · intro h
    induction answers with
    | nil => rfl
    | cons answer answers ih =>
      obtain ⟨hhead, htail⟩ := List.forall_mem_cons.mp hdata
      obtain ⟨hright, hrights⟩ := List.forall_mem_cons.mp h
      rw [answersLoop, answerAddress_of_not_mistaken hhead hright, ok_bind, ih htail hrights, ok_bind,
        List.filterMap_cons]
      cases addressOf type answer <;> rfl

/-- An AAAA record is taken whatever its length is, and a record of 16 octets whatever its type
is. -/
theorem resolve_iff {m : ℕ → UInt8} {length : ℕ} {package : DnsPackage} (type : UInt16)
    (h : decode (memory m) length = .ok (some package)) :
    resolve (memory m) length package.id type =
        .ok (package.answers.filterMap (addressOf type)) ↔
      ∀ answer ∈ package.answers, ¬ Mistaken type answer := by
  rw [← answersLoop_iff (measured_decode h), resolve, h, ok_bind]
  dsimp only
  rw [if_neg (not_not_intro rfl)]

/-- `a` is asked for, and a record of a type has data. -/
def reply (type : UInt8) (data : Bytes) : Bytes :=
  [0, 7, 0x80, 0, 0, 1, 0, 1, 0, 0, 0, 0] ++ [1, 97, 0, 0, type, 0, 1] ++
    [0xC0, 12, 0, type, 0, 1, 0, 0, 0, 60, 0, .ofNat data.length] ++ data

/-- The package of the reply. -/
def replied (type : UInt8) (data : Bytes) : DnsPackage where
  id := 7
  flags := 0x8000
  questions := [{ name := [97], type := type.toUInt16, class_ := 1 }]
  answers := [{ name := [97], type := type.toUInt16, class_ := 1, ttl := 60,
                data_length := .ofNat data.length, data }]
  authorities := []
  additionals := []

theorem resolve_reply :
    resolve (memory fun i => (reply 1 [10, 0, 0, 1]).getD i 0) 35 7 typeA =
      .ok [.v4 { address := #v[10, 0, 0, 1] }] := by
  have hdecode : decode (memory fun i => (reply 1 [10, 0, 0, 1]).getD i 0) 35 =
      .ok (some (replied 1 [10, 0, 0, 1])) := rfl
  exact (resolve_iff typeA hdecode).mpr (by decide)

/-- Sixteen octets are copied out of an AAAA record that has four. -/
theorem short_reply_not_resolved :
    ¬ ∀ (m : ℕ → UInt8) (length : ℕ) (package : DnsPackage) (type : UInt16),
      decode (memory m) length = .ok (some package) →
        resolve (memory m) length package.id type =
          .ok (package.answers.filterMap (addressOf type)) := by
  intro h
  have hreply : resolve (memory fun i => (reply 28 [10, 0, 0, 1]).getD i 0) 35 7 typeAAAA =
      .error .overread := rfl
  have hright := h (fun i => (reply 28 [10, 0, 0, 1]).getD i 0) 35 (replied 28 [10, 0, 0, 1]) typeAAAA rfl
  have hid : (replied 28 [10, 0, 0, 1]).id = 7 := rfl
  rw [hid, hreply] at hright
  cases hright

end Resolver

end Sese
