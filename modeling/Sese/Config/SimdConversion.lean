import Sese.Config.SimdJson

/-!
# What the conversion makes of an element

The stack of the conversion fills the containers from the last one to the first. The tree in which
the containers on the stack have their values already (`complete`) stays the same from round to
round, when no container is the value of a repeated key.
-/
namespace Sese.Json

open Foundation
open Net.Http (byteOrder)

variable {δ : Type}

def Element.isContainer : Element δ → Bool
  | .array _ => true
  | .object _ => true
  | _ => false

mutual

def Element.value : Element δ → Value δ
  | .array children => .list (childValues children)
  | .object members => .dict (memberChildValues [] members)
  | .int64 i => .int i
  | .uint64 n => .int (if n < 2 ^ 63 then n else n - 2 ^ 64)
  | .double d => .double d
  | .string s => .string s
  | .bool b => .bool b
  | .null_value => .null

def childValues : List (Element δ) → List (Value δ)
  | [] => []
  | child :: children => child.value :: childValues children

def memberChildValues : List (Bytes × Value δ) → List (Bytes × Element δ) → List (Bytes × Value δ)
  | acc, [] => acc
  | acc, (key, value) :: members => memberChildValues (Value.set acc key value.value) members

end

mutual

/-- No container is the value of a key that its object has more than once. -/
def Element.Unrepeated : Element δ → Prop
  | .array children => ChildrenUnrepeated children
  | .object members => MembersUnrepeated members
  | _ => True

def ChildrenUnrepeated : List (Element δ) → Prop
  | [] => True
  | child :: children => child.Unrepeated ∧ ChildrenUnrepeated children

def MembersUnrepeated : List (Bytes × Element δ) → Prop
  | [] => True
  | (key, value) :: members =>
    value.Unrepeated ∧ (∀ e ∈ members, e.1 = key → value.isContainer = false ∧ e.2.isContainer = false) ∧
      MembersUnrepeated members

end

theorem wordOf_eq_some {element : Element δ} {value : Value δ} (h : wordOf element = some value) :
    element.value = value ∧ element.isContainer = false := by
  cases element <;> simp_all [wordOf, Element.value, Element.isContainer]

theorem wordOf_eq_none {element : Element δ} (h : wordOf element = none) : element.isContainer := by
  cases element <;> simp_all [wordOf, Element.isContainer]

def lookup (stack : List (Element δ × ℕ)) (id : ℕ) : Option (Element δ) :=
  (stack.find? fun e => e.2 = id).map Prod.fst

mutual

/-- The value of a tree in which what is on the stack is finished. -/
def complete (stack : List (Element δ × ℕ)) : Node δ → Value δ
  | .word _ value => value
  | .list id nodes =>
    match lookup stack id with
    | some element => element.value
    | none => .list (completeNodes stack nodes)
  | .dict id members =>
    match lookup stack id with
    | some element => element.value
    | none => .dict (completeMembers stack members)

def completeNodes (stack : List (Element δ × ℕ)) : List (Node δ) → List (Value δ)
  | [] => []
  | node :: nodes => complete stack node :: completeNodes stack nodes

def completeMembers (stack : List (Element δ × ℕ)) : List (Bytes × Node δ) → List (Bytes × Value δ)
  | [] => []
  | (key, node) :: members => (key, complete stack node) :: completeMembers stack members

end

/-- The values of the identities on the stack are empty containers, and all identities are
below `next`. -/
inductive Agrees (stack : List (Element δ × ℕ)) (next : ℕ) : Node δ → Prop
  | word {id : ℕ} (value : Value δ) : id < next → lookup stack id = none →
    Agrees stack next (.word id value)
  | pending {id : ℕ} {element : Element δ} : id < next → lookup stack id = some element →
    element.isContainer → Agrees stack next (blank element id)
  | list {id : ℕ} {nodes : List (Node δ)} : id < next → lookup stack id = none →
    (∀ node ∈ nodes, Agrees stack next node) → Agrees stack next (.list id nodes)
  | dict {id : ℕ} {members : List (Bytes × Node δ)} : id < next → lookup stack id = none →
    (∀ e ∈ members, Agrees stack next e.2) → Agrees stack next (.dict id members)

/-- A value of the tree has the identity. -/
inductive Occurs (id : ℕ) : Node δ → Prop
  | here {node : Node δ} : node.id = id → Occurs id node
  | list {id' : ℕ} {node : Node δ} {nodes : List (Node δ)} : node ∈ nodes → Occurs id node →
    Occurs id (.list id' nodes)
  | dict {id' : ℕ} {e : Bytes × Node δ} {members : List (Bytes × Node δ)} : e ∈ members →
    Occurs id e.2 → Occurs id (.dict id' members)

theorem blank_cases {element : Element δ} (h : element.isContainer) (id : ℕ) :
    blank element id = .list id [] ∨ blank element id = .dict id [] := by
  cases element with
  | array children => exact .inl rfl
  | object members => exact .inr rfl
  | _ => cases h

@[simp] theorem blank_id (element : Element δ) (id : ℕ) : (blank element id).id = id := by
  cases element <;> rfl

theorem complete_blank {stack : List (Element δ × ℕ)} {element element' : Element δ} {id : ℕ}
    (h : lookup stack id = some element) :
    complete stack (blank element' id) = element.value := by
  cases element' <;> simp [blank, complete, h]

theorem find_blank {element : Element δ} (id : ℕ) : (blank element id).find id = some (blank element id) := by
  cases element <;> simp [blank, Node.find]

theorem completeNodes_eq (stack : List (Element δ × ℕ)) (nodes : List (Node δ)) :
    completeNodes stack nodes = nodes.map (complete stack) := by
  induction nodes with
  | nil => rfl
  | cons node nodes ih => rw [completeNodes, ih, List.map_cons]

theorem completeMembers_eq (stack : List (Element δ × ℕ)) (members : List (Bytes × Node δ)) :
    completeMembers stack members = members.map fun e => (e.1, complete stack e.2) := by
  induction members with
  | nil => rfl
  | cons e members ih =>
    obtain ⟨key, node⟩ := e
    rw [completeMembers, ih, List.map_cons]

theorem replaceNode_eq (id : ℕ) (new : Node δ) (nodes : List (Node δ)) :
    replaceNode id new nodes = nodes.map (Node.replace id new) := by
  induction nodes with
  | nil => rfl
  | cons node nodes ih => rw [replaceNode, ih, List.map_cons]

theorem replaceMember_eq (id : ℕ) (new : Node δ) (members : List (Bytes × Node δ)) :
    replaceMember id new members = members.map fun e => (e.1, Node.replace id new e.2) := by
  induction members with
  | nil => rfl
  | cons e members ih =>
    obtain ⟨key, node⟩ := e
    rw [replaceMember, ih, List.map_cons]

theorem findNode_eq_some {id : ℕ} {nodes : List (Node δ)} {node : Node δ}
    (h : findNode id nodes = some node) : ∃ n ∈ nodes, n.find id = some node := by
  induction nodes with
  | nil => cases h
  | cons n nodes ih =>
    rw [findNode] at h
    cases hn : n.find id with
    | some m =>
      rw [hn] at h
      exact ⟨n, List.mem_cons_self, hn.trans h⟩
    | none =>
      rw [hn] at h
      obtain ⟨m, hm, hfind⟩ := ih h
      exact ⟨m, List.mem_cons_of_mem _ hm, hfind⟩

theorem findMember_eq_some {id : ℕ} {members : List (Bytes × Node δ)} {node : Node δ}
    (h : findMember id members = some node) : ∃ e ∈ members, e.2.find id = some node := by
  induction members with
  | nil => cases h
  | cons e members ih =>
    obtain ⟨key, n⟩ := e
    rw [findMember] at h
    cases hn : n.find id with
    | some m =>
      rw [hn] at h
      exact ⟨(key, n), List.mem_cons_self, hn.trans h⟩
    | none =>
      rw [hn] at h
      obtain ⟨m, hm, hfind⟩ := ih h
      exact ⟨m, List.mem_cons_of_mem _ hm, hfind⟩

theorem isSome_findNode {id : ℕ} {nodes : List (Node δ)} {node : Node δ} (hmem : node ∈ nodes)
    (h : (node.find id).isSome) : (findNode id nodes).isSome := by
  induction nodes with
  | nil => cases hmem
  | cons n nodes ih =>
    rw [findNode]
    cases hfirst : n.find id with
    | some m => rfl
    | none =>
      rcases List.mem_cons.mp hmem with rfl | hmem
      · rw [hfirst] at h
        cases h
      · exact ih hmem

theorem isSome_findMember {id : ℕ} {members : List (Bytes × Node δ)} {e : Bytes × Node δ}
    (hmem : e ∈ members) (h : (e.2.find id).isSome) : (findMember id members).isSome := by
  induction members with
  | nil => cases hmem
  | cons e' members ih =>
    obtain ⟨key, n⟩ := e'
    rw [findMember]
    cases hfirst : n.find id with
    | some m => rfl
    | none =>
      rcases List.mem_cons.mp hmem with rfl | hmem
      · rw [hfirst] at h
        cases h
      · exact ih hmem

theorem Occurs.isSome_find {id : ℕ} {node : Node δ} (h : Occurs id node) : (node.find id).isSome := by
  induction h with
  | @here node hid => cases node <;> simp_all [Node.find, Node.id]
  | list hmem _ ih =>
    rw [Node.find]
    split_ifs
    · rfl
    · exact isSome_findNode hmem ih
  | dict hmem _ ih =>
    rw [Node.find]
    split_ifs
    · rfl
    · exact isSome_findMember hmem ih

theorem Agrees.find_eq {stack : List (Element δ × ℕ)} {next : ℕ} {root node : Node δ}
    (h : Agrees stack next root) {id : ℕ} {element : Element δ} (hid : lookup stack id = some element)
    (hfind : root.find id = some node) : node = blank element id := by
  induction h with
  | @word id' value _ hnone =>
    have hne : id' ≠ id := by
      rintro rfl
      rw [hid] at hnone
      cases hnone
    rw [Node.find, if_neg hne] at hfind
    cases hfind
  | @pending id' element' _ helement hcontainer =>
    by_cases heq : id' = id
    · subst heq
      rw [hid] at helement
      cases helement
      rw [find_blank] at hfind
      exact (Option.some.inj hfind).symm
    · rcases blank_cases hcontainer id' with hblank | hblank <;>
        rw [hblank, Node.find, if_neg heq] at hfind <;> cases hfind
  | @list id' nodes _ hnone _ ih =>
    have hne : id' ≠ id := by
      rintro rfl
      rw [hid] at hnone
      cases hnone
    rw [Node.find, if_neg hne] at hfind
    obtain ⟨n, hn, hfind⟩ := findNode_eq_some hfind
    exact ih n hn hfind
  | @dict id' members _ hnone _ ih =>
    have hne : id' ≠ id := by
      rintro rfl
      rw [hid] at hnone
      cases hnone
    rw [Node.find, if_neg hne] at hfind
    obtain ⟨e, he, hfind⟩ := findMember_eq_some hfind
    exact ih e he hfind

theorem Agrees.find {stack : List (Element δ × ℕ)} {next : ℕ} {root : Node δ}
    (h : Agrees stack next root) {id : ℕ} {element : Element δ} (hid : lookup stack id = some element)
    (hoccurs : Occurs id root) : root.find id = some (blank element id) := by
  obtain ⟨node, hnode⟩ := Option.isSome_iff_exists.mp hoccurs.isSome_find
  rw [hnode, h.find_eq hid hnode]

theorem Agrees.replace {stack stack' : List (Element δ × ℕ)} {next next' : ℕ} {root new : Node δ}
    (h : Agrees stack next root) {id : ℕ} {element : Element δ} (hid : lookup stack id = some element)
    (hnew : Agrees stack' next' new) (hvalue : complete stack' new = element.value)
    (hlookup : ∀ i < next, i ≠ id → lookup stack' i = lookup stack i) (hle : next ≤ next') :
    Agrees stack' next' (Node.replace id new root) ∧
      complete stack' (Node.replace id new root) = complete stack root := by
  induction h with
  | @word id' value hlt hnone =>
    have hne : id' ≠ id := by
      rintro rfl
      rw [hid] at hnone
      cases hnone
    rw [Node.replace, if_neg hne]
    exact ⟨.word value (by omega) ((hlookup id' hlt hne).trans hnone), rfl⟩
  | @pending id' element' hlt helement hcontainer =>
    by_cases heq : id' = id
    · subst heq
      rw [hid] at helement
      cases helement
      have hreplace : Node.replace id' new (blank element id') = new := by
        rcases blank_cases hcontainer id' with hblank | hblank <;> rw [hblank, Node.replace, if_pos rfl]
      rw [hreplace, complete_blank hid]
      exact ⟨hnew, hvalue⟩
    · have hreplace : Node.replace id new (blank element' id') = blank element' id' := by
        rcases blank_cases hcontainer id' with hblank | hblank <;>
          rw [hblank, Node.replace, if_neg heq] <;> rfl
      have helement' := (hlookup id' hlt heq).trans helement
      rw [hreplace, complete_blank helement, complete_blank helement']
      exact ⟨.pending (by omega) helement' hcontainer, rfl⟩
  | @list id' nodes hlt hnone _ ih =>
    have hne : id' ≠ id := by
      rintro rfl
      rw [hid] at hnone
      cases hnone
    have hnone' := (hlookup id' hlt hne).trans hnone
    rw [Node.replace, if_neg hne, replaceNode_eq]
    constructor
    · refine .list (by omega) hnone' fun node hnode => ?_
      obtain ⟨n, hn, rfl⟩ := List.mem_map.mp hnode
      exact (ih n hn).1
    · rw [complete, complete, hnone, hnone', completeNodes_eq, completeNodes_eq, List.map_map]
      have hnodes : nodes.map (complete stack' ∘ Node.replace id new) = nodes.map (complete stack) :=
        List.map_congr_left fun n hn => (ih n hn).2
      dsimp only
      rw [hnodes]
  | @dict id' members hlt hnone _ ih =>
    have hne : id' ≠ id := by
      rintro rfl
      rw [hid] at hnone
      cases hnone
    have hnone' := (hlookup id' hlt hne).trans hnone
    rw [Node.replace, if_neg hne, replaceMember_eq]
    constructor
    · refine .dict (by omega) hnone' fun e he => ?_
      obtain ⟨a, ha, rfl⟩ := List.mem_map.mp he
      exact (ih a ha).1
    · rw [complete, complete, hnone, hnone', completeMembers_eq, completeMembers_eq, List.map_map]
      have hmembers : members.map ((fun e => (e.1, complete stack' e.2)) ∘
          fun e => (e.1, Node.replace id new e.2)) = members.map fun e => (e.1, complete stack e.2) :=
        List.map_congr_left fun a ha => by
          dsimp only [Function.comp]
          rw [(ih a ha).2]
      dsimp only
      rw [hmembers]

theorem Agrees.of_list {stack : List (Element δ × ℕ)} {next id : ℕ} {nodes : List (Node δ)}
    {node : Node δ} (h : Agrees stack next (.list id nodes)) (hmem : node ∈ nodes) :
    lookup stack id = none ∧ Agrees stack next node := by
  generalize hroot : Node.list id nodes = root at h
  cases h with
  | word value _ _ => cases hroot
  | @pending id' element _ _ hcontainer =>
    rcases blank_cases hcontainer id' with hblank | hblank
    · rw [hblank] at hroot
      cases hroot
      cases hmem
    · rw [hblank] at hroot
      cases hroot
  | list _ hnone hnodes =>
    cases hroot
    exact ⟨hnone, hnodes node hmem⟩
  | dict _ _ _ => cases hroot

theorem Agrees.of_dict {stack : List (Element δ × ℕ)} {next id : ℕ} {members : List (Bytes × Node δ)}
    {e : Bytes × Node δ} (h : Agrees stack next (.dict id members)) (hmem : e ∈ members) :
    lookup stack id = none ∧ Agrees stack next e.2 := by
  generalize hroot : Node.dict id members = root at h
  cases h with
  | word value _ _ => cases hroot
  | @pending id' element _ _ hcontainer =>
    rcases blank_cases hcontainer id' with hblank | hblank
    · rw [hblank] at hroot
      cases hroot
    · rw [hblank] at hroot
      cases hroot
      cases hmem
  | list _ _ _ => cases hroot
  | dict _ hnone hmembers =>
    cases hroot
    exact ⟨hnone, hmembers e hmem⟩

theorem Occurs.replace {stack : List (Element δ × ℕ)} {next : ℕ} {root new : Node δ} {id id' : ℕ}
    {element : Element δ} (h : Occurs id' root) (hagrees : Agrees stack next root)
    (hid : lookup stack id = some element) (hne : id' ≠ id) :
    Occurs id' (Node.replace id new root) := by
  induction h with
  | @here node heq =>
    apply Occurs.here
    cases node <;> simp_all [Node.replace, Node.id]
  | @list id'' node nodes hmem _ ih =>
    obtain ⟨hnone, hnode⟩ := hagrees.of_list hmem
    have hne' : id'' ≠ id := by
      rintro rfl
      rw [hid] at hnone
      cases hnone
    rw [Node.replace, if_neg hne', replaceNode_eq]
    exact .list (List.mem_map_of_mem hmem) (ih hnode)
  | @dict id'' e members hmem _ ih =>
    obtain ⟨hnone, hnode⟩ := hagrees.of_dict hmem
    have hne' : id'' ≠ id := by
      rintro rfl
      rw [hid] at hnone
      cases hnone
    have hmem' : (e.1, Node.replace id new e.2) ∈ members.map fun e => (e.1, Node.replace id new e.2) :=
      List.mem_map_of_mem hmem
    rw [Node.replace, if_neg hne', replaceMember_eq]
    exact .dict hmem' (ih hnode)

/-- What the new value has inside is then in the tree. -/
theorem Occurs.inside {root new : Node δ} {id id' : ℕ} (h : Occurs id root) (hnew : Occurs id' new) :
    Occurs id' (Node.replace id new root) := by
  induction h with
  | @here node hid => cases node <;> simp_all [Node.replace, Node.id]
  | @list id'' node nodes hmem _ ih =>
    rw [Node.replace]
    split_ifs
    · exact hnew
    · rw [replaceNode_eq]
      exact .list (List.mem_map_of_mem hmem) ih
  | @dict id'' e members hmem _ ih =>
    rw [Node.replace]
    split_ifs
    · exact hnew
    · rw [replaceMember_eq]
      have hmem' : (e.1, Node.replace id new e.2) ∈ members.map fun e => (e.1, Node.replace id new e.2) :=
        List.mem_map_of_mem hmem
      exact .dict hmem' ih

def pending (stack : List (Element δ × ℕ)) : ℕ := (stack.map fun p => p.1.containers).sum

/-- What one of the loops leaves: new identities, the containers on the stack, and each of them
empty among the values. -/
structure Filled.Fresh {α : Type} (filled : Filled δ α) (next : ℕ) (nodeOf : α → Node δ) : Prop where
  le : next ≤ filled.next
  range : ∀ p ∈ filled.pushed, next ≤ p.2 ∧ p.2 < filled.next
  nodup : (filled.pushed.map Prod.snd).Nodup
  container : ∀ p ∈ filled.pushed, p.1.isContainer ∧ p.1.Unrepeated
  mem : ∀ p ∈ filled.pushed, ∃ a ∈ filled.content, nodeOf a = blank p.1 p.2

theorem containers_of_word {element : Element δ} (h : element.isContainer = false) :
    element.containers = 0 := by
  cases element with
  | array children => cases h
  | object members => cases h
  | _ => rfl

theorem fillList_fresh {children : List (Element δ)} (h : ChildrenUnrepeated children) (next : ℕ) :
    (fillList children next).Fresh next (fun node => node) ∧
      pending (fillList children next).pushed = childContainers children := by
  induction children generalizing next with
  | nil =>
    refine ⟨⟨le_rfl, ?_, .nil, ?_, ?_⟩, rfl⟩ <;>
    · intro p hp
      cases hp
  | cons child children ih =>
    obtain ⟨hchild, hchildren⟩ := h
    obtain ⟨hfresh, hpending⟩ := ih hchildren (next + 1)
    have hle := hfresh.le
    rw [fillList, childContainers]
    cases hword : wordOf child with
    | some value =>
      obtain ⟨-, hcontainer⟩ := wordOf_eq_some hword
      rw [containers_of_word hcontainer, Nat.zero_add]
      refine ⟨⟨by dsimp only; omega, fun p hp => ?_, hfresh.nodup, hfresh.container, fun p hp => ?_⟩,
        hpending⟩
      · have hrange := hfresh.range p hp
        exact ⟨by omega, hrange.2⟩
      · obtain ⟨a, ha, hblank⟩ := hfresh.mem p hp
        exact ⟨a, List.mem_cons_of_mem _ ha, hblank⟩
    | none =>
      have hcontainer := wordOf_eq_none hword
      refine ⟨⟨by dsimp only; omega, fun p hp => ?_, ?_, fun p hp => ?_, fun p hp => ?_⟩, ?_⟩
      · rcases List.mem_cons.mp hp with rfl | hp
        · exact ⟨le_rfl, hle⟩
        · have hrange := hfresh.range p hp
          exact ⟨by omega, hrange.2⟩
      · refine List.nodup_cons.mpr ⟨fun hmem => ?_, hfresh.nodup⟩
        obtain ⟨p, hp, heq⟩ := List.mem_map.mp hmem
        have hrange := hfresh.range p hp
        omega
      · rcases List.mem_cons.mp hp with rfl | hp
        · exact ⟨hcontainer, hchild⟩
        · exact hfresh.container p hp
      · rcases List.mem_cons.mp hp with rfl | hp
        · exact ⟨_, List.mem_cons_self, rfl⟩
        · obtain ⟨a, ha, hblank⟩ := hfresh.mem p hp
          exact ⟨a, List.mem_cons_of_mem _ ha, hblank⟩
      · rw [← hpending]
        rfl

theorem fillList_agrees {children : List (Element δ)} (h : ChildrenUnrepeated children) {next : ℕ}
    {stack : List (Element δ × ℕ)} {bound : ℕ} (hbound : (fillList children next).next ≤ bound)
    (hlookup : ∀ i, next ≤ i → i < (fillList children next).next →
      lookup stack i = lookup (fillList children next).pushed i) :
    (∀ node ∈ (fillList children next).content, Agrees stack bound node) ∧
      completeNodes stack (fillList children next).content = childValues children := by
  induction children generalizing next with
  | nil =>
    refine ⟨fun node hnode => ?_, rfl⟩
    cases hnode
  | cons child children ih =>
    obtain ⟨hchild, hchildren⟩ := h
    have hfresh := (fillList_fresh hchildren (next + 1)).1
    have hle := hfresh.le
    have hnone : lookup (fillList children (next + 1)).pushed next = none := by
      rw [lookup, Option.map_eq_none_iff, List.find?_eq_none]
      intro p hp
      have hrange := hfresh.range p hp
      simp only [decide_eq_true_eq]
      omega
    rw [fillList] at hbound hlookup ⊢
    cases hword : wordOf child with
    | some value =>
      rw [hword] at hbound hlookup
      obtain ⟨hagrees, hvalues⟩ := ih hchildren hbound fun i hi hlt => hlookup i (by omega) hlt
      obtain ⟨hvalue, -⟩ := wordOf_eq_some hword
      constructor
      · intro node hnode
        rcases List.mem_cons.mp hnode with rfl | hnode
        · exact .word value (by simp only at hbound; omega) ((hlookup next le_rfl hle).trans hnone)
        · exact hagrees node hnode
      · rw [childValues, completeNodes, complete, hvalues, hvalue]
    | none =>
      rw [hword] at hbound hlookup
      have hcontainer := wordOf_eq_none hword
      have hself : lookup stack next = some child := by
        rw [hlookup next le_rfl hle]
        simp [lookup]
      have hrest : ∀ i, next + 1 ≤ i → i < (fillList children (next + 1)).next →
          lookup stack i = lookup (fillList children (next + 1)).pushed i := by
        intro i hi hlt
        rw [hlookup i (by omega) hlt]
        have hne : next ≠ i := by omega
        simp [lookup, hne]
      obtain ⟨hagrees, hvalues⟩ := ih hchildren hbound hrest
      constructor
      · intro node hnode
        rcases List.mem_cons.mp hnode with rfl | hnode
        · exact .pending (by simp only at hbound; omega) hself hcontainer
        · exact hagrees node hnode
      · rw [childValues, completeNodes, complete_blank hself, hvalues]

/-- A key that is still to come and is there already has no container before or now. -/
def Compatible (members : List (Bytes × Node δ)) (rest : List (Bytes × Element δ)) : Prop :=
  ∀ e ∈ members, ∀ r ∈ rest, r.1 = e.1 →
    r.2.isContainer = false ∧ ∃ id value, e.2 = .word id value

theorem Compatible.word {members : List (Bytes × Node δ)} {rest : List (Bytes × Element δ)}
    {key : Bytes} {value : Element δ} (h : Compatible members ((key, value) :: rest))
    (hunrepeated : MembersUnrepeated ((key, value) :: rest)) (id : ℕ) (word : Value δ) :
    Compatible (OrdMap.insertEntry byteOrder key (.word id word) members) rest := by
  intro e he r hr heq
  rcases OrdMap.mem_insertEntry he with ⟨hrank, hword⟩ | he
  · obtain ⟨-, hkeys, -⟩ := hunrepeated
    have hkey : r.1 = key := heq.trans (Value.byteOrder_injective hrank)
    exact ⟨(hkeys r hr hkey).2, id, word, hword⟩
  · exact h e he r (List.mem_cons_of_mem _ hr) heq

theorem Compatible.container {members : List (Bytes × Node δ)} {rest : List (Bytes × Element δ)}
    {key : Bytes} {value : Element δ} (h : Compatible members ((key, value) :: rest))
    (hunrepeated : MembersUnrepeated ((key, value) :: rest)) (hcontainer : value.isContainer)
    (node : Node δ) : Compatible (OrdMap.insertEntry byteOrder key node members) rest := by
  intro e he r hr heq
  rcases OrdMap.mem_insertEntry he with ⟨hrank, -⟩ | he
  · obtain ⟨-, hkeys, -⟩ := hunrepeated
    have hkey : r.1 = key := heq.trans (Value.byteOrder_injective hrank)
    have hvalue := (hkeys r hr hkey).1
    rw [hvalue] at hcontainer
    cases hcontainer
  · exact h e he r (List.mem_cons_of_mem _ hr) heq

theorem Compatible.find_eq_none {members : List (Bytes × Node δ)} {rest : List (Bytes × Element δ)}
    {key : Bytes} {value : Element δ} (h : Compatible members ((key, value) :: rest))
    (hcontainer : value.isContainer) : (members.find? fun e => e.1 = key) = none := by
  rw [List.find?_eq_none]
  intro e he heq
  have hword := (h e he (key, value) List.mem_cons_self (of_decide_eq_true heq).symm).1
  rw [hword] at hcontainer
  cases hcontainer

theorem mem_insertEntry_of_key_ne {members : List (Bytes × Node δ)} {e : Bytes × Node δ} (he : e ∈ members)
    {key : Bytes} (hne : key ≠ e.1) (node : Node δ) :
    e ∈ OrdMap.insertEntry byteOrder key node members :=
  OrdMap.mem_insertEntry_of_ne _ he fun heq => hne (Value.byteOrder_injective heq).symm

theorem completeMembers_insertEntry (stack : List (Element δ × ℕ)) (key : Bytes) (node : Node δ)
    (members : List (Bytes × Node δ)) :
    completeMembers stack (OrdMap.insertEntry byteOrder key node members) =
      Value.set (completeMembers stack members) key (complete stack node) := by
  rw [completeMembers_eq, completeMembers_eq, OrdMap.insertEntry_map]
  rfl

theorem fillDict_fresh {rest : List (Bytes × Element δ)} (h : MembersUnrepeated rest)
    {members : List (Bytes × Node δ)} (hcompatible : Compatible members rest) (next : ℕ) :
    (fillDict rest members next).Fresh next Prod.snd ∧
      pending (fillDict rest members next).pushed = memberContainers rest ∧
      ∀ e ∈ members, (∀ r ∈ rest, r.1 ≠ e.1) → e ∈ (fillDict rest members next).content := by
  induction rest generalizing members next with
  | nil =>
    refine ⟨⟨le_rfl, ?_, .nil, ?_, ?_⟩, rfl, fun e he _ => he⟩ <;>
    · intro p hp
      cases hp
  | cons r rest ih =>
    obtain ⟨key, value⟩ := r
    have hrest := h.2.2
    rw [fillDict, memberContainers]
    cases hword : wordOf value with
    | some word =>
      obtain ⟨-, hcontainer⟩ := wordOf_eq_some hword
      obtain ⟨hfresh, hpending, hstay⟩ := ih hrest (hcompatible.word h next word) (next + 1)
      have hle := hfresh.le
      rw [containers_of_word hcontainer, Nat.zero_add]
      refine ⟨⟨by dsimp only; omega, fun p hp => ?_, hfresh.nodup, hfresh.container, hfresh.mem⟩,
        hpending, fun e he hne => ?_⟩
      · have hrange := hfresh.range p hp
        exact ⟨by omega, hrange.2⟩
      · exact hstay e (mem_insertEntry_of_key_ne he (hne (key, value) List.mem_cons_self) _) fun r hr =>
          hne r (List.mem_cons_of_mem _ hr)
    | none =>
      have hcontainer := wordOf_eq_none hword
      rw [hcompatible.find_eq_none hcontainer]
      obtain ⟨hfresh, hpending, hstay⟩ :=
        ih hrest (hcompatible.container h hcontainer (blank value next)) (next + 1)
      have hle := hfresh.le
      refine ⟨⟨by dsimp only; omega, fun p hp => ?_, ?_, fun p hp => ?_, fun p hp => ?_⟩, ?_,
        fun e he hne => ?_⟩
      · rcases List.mem_cons.mp hp with rfl | hp
        · exact ⟨le_rfl, hle⟩
        · have hrange := hfresh.range p hp
          exact ⟨by omega, hrange.2⟩
      · refine List.nodup_cons.mpr ⟨fun hmem => ?_, hfresh.nodup⟩
        obtain ⟨p, hp, heq⟩ := List.mem_map.mp hmem
        have hrange := hfresh.range p hp
        omega
      · rcases List.mem_cons.mp hp with rfl | hp
        · exact ⟨hcontainer, h.1⟩
        · exact hfresh.container p hp
      · rcases List.mem_cons.mp hp with rfl | hp
        · obtain ⟨k, hk, hmem⟩ : ∃ k, byteOrder k = byteOrder key ∧ (k, blank value next) ∈
              OrdMap.insertEntry byteOrder key (blank value next) members :=
            OrdMap.exists_mem_insertEntry key (blank value next) members
          refine ⟨_, hstay (k, blank value next) hmem fun r hr heq => ?_, rfl⟩
          have hkey : r.1 = key := heq.trans (Value.byteOrder_injective hk)
          have hvalue := (h.2.1 r hr hkey).1
          rw [hvalue] at hcontainer
          cases hcontainer
        · exact hfresh.mem p hp
      · rw [← hpending]
        rfl
      · exact hstay e (mem_insertEntry_of_key_ne he (hne (key, value) List.mem_cons_self) _) fun r hr =>
          hne r (List.mem_cons_of_mem _ hr)

theorem fillDict_agrees {rest : List (Bytes × Element δ)} (h : MembersUnrepeated rest)
    {members : List (Bytes × Node δ)} (hcompatible : Compatible members rest) {next : ℕ}
    {stack : List (Element δ × ℕ)} {bound : ℕ} (hmembers : ∀ e ∈ members, Agrees stack bound e.2)
    (hbound : (fillDict rest members next).next ≤ bound)
    (hlookup : ∀ i, next ≤ i → i < (fillDict rest members next).next →
      lookup stack i = lookup (fillDict rest members next).pushed i) :
    (∀ e ∈ (fillDict rest members next).content, Agrees stack bound e.2) ∧
      completeMembers stack (fillDict rest members next).content =
        memberChildValues (completeMembers stack members) rest := by
  induction rest generalizing members next with
  | nil => exact ⟨hmembers, rfl⟩
  | cons r rest ih =>
    obtain ⟨key, value⟩ := r
    have hrest := h.2.2
    have hnew {node : Node δ} (hnode : Agrees stack bound node) :
        ∀ e ∈ OrdMap.insertEntry byteOrder key node members, Agrees stack bound e.2 := by
      intro e he
      rcases OrdMap.mem_insertEntry he with ⟨-, heq⟩ | he
      · rw [heq]
        exact hnode
      · exact hmembers e he
    rw [fillDict] at hbound hlookup ⊢
    cases hword : wordOf value with
    | some word =>
      rw [hword] at hbound hlookup
      have hcompatible' := hcompatible.word h next word
      have hfresh := (fillDict_fresh hrest hcompatible' (next + 1)).1
      have hle := hfresh.le
      have hnone : lookup stack next = none := by
        rw [hlookup next le_rfl hle, lookup, Option.map_eq_none_iff, List.find?_eq_none]
        intro p hp
        have hrange := hfresh.range p hp
        simp only [decide_eq_true_eq]
        omega
      have hagrees : Agrees stack bound (.word next word) :=
        .word word (by dsimp only at hbound; omega) hnone
      obtain ⟨hvalue, -⟩ := wordOf_eq_some hword
      obtain ⟨hcontent, hvalues⟩ := ih hrest hcompatible' (hnew hagrees) hbound fun i hi hlt =>
        hlookup i (by omega) hlt
      refine ⟨hcontent, ?_⟩
      rw [hvalues, completeMembers_insertEntry, memberChildValues, complete, hvalue]
    | none =>
      have hcontainer := wordOf_eq_none hword
      rw [hword, hcompatible.find_eq_none hcontainer] at hbound hlookup
      rw [hcompatible.find_eq_none hcontainer]
      have hcompatible' := hcompatible.container h hcontainer (blank value next)
      have hfresh := (fillDict_fresh hrest hcompatible' (next + 1)).1
      have hle := hfresh.le
      have hself : lookup stack next = some value := by
        rw [hlookup next le_rfl hle]
        simp [lookup]
      have hagrees : Agrees stack bound (blank value next) :=
        .pending (by dsimp only at hbound; omega) hself hcontainer
      have hlater : ∀ i, next + 1 ≤ i → i < (fillDict rest
          (OrdMap.insertEntry byteOrder key (blank value next) members) (next + 1)).next →
          lookup stack i = lookup (fillDict rest
            (OrdMap.insertEntry byteOrder key (blank value next) members) (next + 1)).pushed i := by
        intro i hi hlt
        rw [hlookup i (by omega) hlt]
        have hne : next ≠ i := by omega
        simp [lookup, hne]
      obtain ⟨hcontent, hvalues⟩ := ih hrest hcompatible' (hnew hagrees) hbound hlater
      refine ⟨hcontent, ?_⟩
      rw [hvalues, completeMembers_insertEntry, memberChildValues, complete_blank hself]

theorem lookup_eq_some_iff {stack : List (Element δ × ℕ)} (h : (stack.map Prod.snd).Nodup) (id : ℕ)
    (element : Element δ) : lookup stack id = some element ↔ (element, id) ∈ stack := by
  induction stack with
  | nil => simp [lookup]
  | cons p stack ih =>
    obtain ⟨e, i⟩ := p
    obtain ⟨hnot, hnodup⟩ := List.nodup_cons.mp h
    by_cases heq : i = id
    · subst heq
      have hmem : (element, i) ∉ stack := fun hmem => hnot (List.mem_map.mpr ⟨_, hmem, rfl⟩)
      simp [lookup, hmem, eq_comm]
    · rw [List.mem_cons, ← ih hnodup]
      have hne : (element, id) ≠ (e, i) := fun hpair => heq (Prod.ext_iff.mp hpair).2.symm
      simp [lookup, heq, hne]

/-- The pointers on the stack are different, and lead to the empty containers of the tree. -/
structure Ready (stack : List (Element δ × ℕ)) (next : ℕ) (root : Node δ) : Prop where
  agrees : Agrees stack next root
  nodup : (stack.map Prod.snd).Nodup
  below : ∀ p ∈ stack, p.2 < next
  container : ∀ p ∈ stack, p.1.isContainer ∧ p.1.Unrepeated
  occurs : ∀ p ∈ stack, Occurs p.2 root

variable {stack : List (Element δ × ℕ)} {next id : ℕ} {root : Node δ} {element : Element δ}

/-- The stack behind a round, whose identities are those below `next` and new ones. -/
theorem Ready.nodup_pushed (h : Ready ((element, id) :: stack) next root) {α : Type}
    {filled : Filled δ α} {nodeOf : α → Node δ} (hfresh : filled.Fresh next nodeOf) :
    ((filled.pushed.reverse ++ stack).map Prod.snd).Nodup := by
  rw [List.map_append, List.map_reverse]
  apply List.Nodup.append
  · exact List.nodup_reverse.mpr hfresh.nodup
  · exact (List.nodup_cons.mp h.nodup).2
  · intro i hi hi'
    obtain ⟨p, hp, rfl⟩ := List.mem_map.mp (List.mem_reverse.mp hi)
    obtain ⟨q, hq, heq⟩ := List.mem_map.mp hi'
    have hrange := (hfresh.range p hp).1
    have hbelow := h.below q (List.mem_cons_of_mem _ hq)
    omega

theorem Ready.lookup_new (h : Ready ((element, id) :: stack) next root) {α : Type}
    {filled : Filled δ α} {nodeOf : α → Node δ} (hfresh : filled.Fresh next nodeOf) {i : ℕ}
    (hi : next ≤ i) : lookup (filled.pushed.reverse ++ stack) i = lookup filled.pushed i := by
  apply Option.ext
  intro e
  rw [lookup_eq_some_iff (h.nodup_pushed hfresh), lookup_eq_some_iff hfresh.nodup, List.mem_append,
    List.mem_reverse, or_iff_left_iff_imp]
  intro hmem
  have hbelow := h.below (e, i) (List.mem_cons_of_mem _ hmem)
  simp only at hbelow
  omega

theorem Ready.lookup_old (h : Ready ((element, id) :: stack) next root) {α : Type}
    {filled : Filled δ α} {nodeOf : α → Node δ} (hfresh : filled.Fresh next nodeOf) {i : ℕ}
    (hi : i < next) (hne : i ≠ id) :
    lookup (filled.pushed.reverse ++ stack) i = lookup ((element, id) :: stack) i := by
  apply Option.ext
  intro e
  rw [lookup_eq_some_iff (h.nodup_pushed hfresh), lookup_eq_some_iff h.nodup, List.mem_append,
    List.mem_reverse, List.mem_cons]
  have hpair : (e, i) ≠ (element, id) := fun heq => hne (Prod.ext_iff.mp heq).2
  have hpushed : (e, i) ∉ filled.pushed := by
    intro hmem
    have hrange := (hfresh.range (e, i) hmem).1
    simp only at hrange
    omega
  simp [hpair, hpushed]

/-- A round leaves the complete tree as it was. -/
theorem Ready.step (h : Ready ((element, id) :: stack) next root) {α : Type} {filled : Filled δ α}
    {nodeOf : α → Node δ} (hfresh : filled.Fresh next nodeOf) {new : Node δ}
    (hagrees : Agrees (filled.pushed.reverse ++ stack) filled.next new)
    (hvalue : complete (filled.pushed.reverse ++ stack) new = element.value)
    (hnew : ∀ p ∈ filled.pushed, Occurs p.2 new) :
    Ready (filled.pushed.reverse ++ stack) filled.next (Node.replace id new root) ∧
      complete (filled.pushed.reverse ++ stack) (Node.replace id new root) =
        complete ((element, id) :: stack) root := by
  have hself : lookup ((element, id) :: stack) id = some element :=
    (lookup_eq_some_iff h.nodup id element).mpr List.mem_cons_self
  have hle := hfresh.le
  obtain ⟨hagrees', hcomplete⟩ := h.agrees.replace hself hagrees hvalue
    (fun i hi hne => h.lookup_old hfresh hi hne) hle
  refine ⟨⟨hagrees', h.nodup_pushed hfresh, fun p hp => ?_, fun p hp => ?_, fun p hp => ?_⟩, hcomplete⟩
  · rcases List.mem_append.mp hp with hp | hp
    · exact (hfresh.range p (List.mem_reverse.mp hp)).2
    · have hbelow := h.below p (List.mem_cons_of_mem _ hp)
      omega
  · rcases List.mem_append.mp hp with hp | hp
    · exact hfresh.container p (List.mem_reverse.mp hp)
    · exact h.container p (List.mem_cons_of_mem _ hp)
  · rcases List.mem_append.mp hp with hp | hp
    · exact (h.occurs _ List.mem_cons_self).inside (hnew p (List.mem_reverse.mp hp))
    · have hne : p.2 ≠ id := by
        intro heq
        apply (List.nodup_cons.mp h.nodup).1
        rw [← heq]
        exact List.mem_map.mpr ⟨p, hp, rfl⟩
      exact (h.occurs p (List.mem_cons_of_mem _ hp)).replace h.agrees hself hne

theorem Ready.lookup_self (h : Ready ((element, id) :: stack) next root) {α : Type}
    {filled : Filled δ α} {nodeOf : α → Node δ} (hfresh : filled.Fresh next nodeOf) :
    lookup (filled.pushed.reverse ++ stack) id = none := by
  have hid := h.below _ List.mem_cons_self
  simp only at hid
  rw [lookup, Option.map_eq_none_iff, List.find?_eq_none]
  intro p hp heq
  rw [decide_eq_true_eq] at heq
  rcases List.mem_append.mp hp with hp | hp
  · have hrange := hfresh.range p (List.mem_reverse.mp hp)
    omega
  · exact (List.nodup_cons.mp h.nodup).1 (List.mem_map.mpr ⟨p, hp, heq⟩)

mutual

theorem complete_nil : (root : Node δ) → complete [] root = root.value
  | .word _ _ => rfl
  | .list _ nodes => by
    rw [complete, Node.value, ← completeNodes_nil nodes]
    rfl
  | .dict _ members => by
    rw [complete, Node.value, ← completeMembers_nil members]
    rfl

theorem completeNodes_nil : (nodes : List (Node δ)) → completeNodes [] nodes = nodeValues nodes
  | [] => rfl
  | node :: nodes => by rw [completeNodes, nodeValues, complete_nil node, completeNodes_nil nodes]

theorem completeMembers_nil : (members : List (Bytes × Node δ)) →
    completeMembers [] members = memberNodeValues members
  | [] => rfl
  | (_, node) :: members => by
    rw [completeMembers, memberNodeValues, complete_nil node, completeMembers_nil members]

end

theorem pending_append (stack stack' : List (Element δ × ℕ)) :
    pending (stack.reverse ++ stack') = pending stack + pending stack' := by
  simp [pending, List.sum_append, List.sum_reverse]

theorem Ready.array {children : List (Element δ)} (h : Ready ((.array children, id) :: stack) next root) :
    Ready ((fillList children next).pushed.reverse ++ stack) (fillList children next).next
        (Node.replace id (.list id (fillList children next).content) root) ∧
      complete ((fillList children next).pushed.reverse ++ stack)
          (Node.replace id (.list id (fillList children next).content) root) =
        complete ((.array children, id) :: stack) root := by
  obtain ⟨-, hunrepeated⟩ := h.container _ List.mem_cons_self
  have hid := h.below _ List.mem_cons_self
  obtain ⟨hfresh, -⟩ := fillList_fresh hunrepeated next
  obtain ⟨hagrees, hvalues⟩ := fillList_agrees hunrepeated le_rfl fun i hi _ => h.lookup_new hfresh hi
  have hnone := h.lookup_self hfresh
  have hvalue : complete ((fillList children next).pushed.reverse ++ stack)
      (.list id (fillList children next).content) = (Element.array children).value := by
    rw [complete, hnone, hvalues, Element.value]
  have hnew : ∀ p ∈ (fillList children next).pushed,
      Occurs p.2 (.list id (fillList children next).content) := by
    intro p hp
    obtain ⟨node, hnode, hblank⟩ := hfresh.mem p hp
    exact .list hnode (.here (by rw [hblank, blank_id]))
  exact h.step hfresh (.list (Nat.lt_of_lt_of_le hid hfresh.le) hnone hagrees) hvalue hnew

theorem compatible_nil (rest : List (Bytes × Element δ)) :
    Compatible ([] : List (Bytes × Node δ)) rest := by
  intro e he
  cases he

theorem Ready.object {members : List (Bytes × Element δ)}
    (h : Ready ((.object members, id) :: stack) next root) :
    Ready ((fillDict members [] next).pushed.reverse ++ stack) (fillDict members [] next).next
        (Node.replace id (.dict id (fillDict members [] next).content) root) ∧
      complete ((fillDict members [] next).pushed.reverse ++ stack)
          (Node.replace id (.dict id (fillDict members [] next).content) root) =
        complete ((.object members, id) :: stack) root := by
  obtain ⟨-, hunrepeated⟩ := h.container _ List.mem_cons_self
  have hid := h.below _ List.mem_cons_self
  obtain ⟨hfresh, -, -⟩ := fillDict_fresh hunrepeated (compatible_nil members) next
  obtain ⟨hagrees, hvalues⟩ := fillDict_agrees hunrepeated (compatible_nil members)
    (fun e he => absurd he List.not_mem_nil) le_rfl fun i hi _ => h.lookup_new hfresh hi
  have hnone := h.lookup_self hfresh
  have hvalue : complete ((fillDict members [] next).pushed.reverse ++ stack)
      (.dict id (fillDict members [] next).content) = (Element.object members).value := by
    rw [complete, hnone, hvalues, Element.value, completeMembers]
  have hnew : ∀ p ∈ (fillDict members [] next).pushed,
      Occurs p.2 (.dict id (fillDict members [] next).content) := by
    intro p hp
    obtain ⟨e, he, hblank⟩ := hfresh.mem p hp
    exact .dict he (.here (by rw [hblank, blank_id]))
  exact h.step hfresh (.dict (Nat.lt_of_lt_of_le hid hfresh.le) hnone hagrees) hvalue hnew

/-- The loop makes the complete tree of what is on its stack. -/
theorem convertLoop_eq {fuel : ℕ} (h : Ready stack next root) (hfuel : pending stack ≤ fuel) :
    convertLoop fuel root next stack = .ok (complete stack root) := by
  induction fuel generalizing stack next root with
  | zero =>
    cases stack with
    | nil => rw [convertLoop, complete_nil]
    | cons p stack =>
      obtain ⟨hcontainer, -⟩ := h.container p List.mem_cons_self
      have hpositive : 0 < p.1.containers := by
        cases hp : p.1 <;> simp_all [Element.isContainer, Element.containers]
      simp only [pending, List.map_cons, List.sum_cons] at hfuel
      omega
  | succ fuel ih =>
    cases stack with
    | nil => rw [convertLoop, complete_nil]
    | cons p stack =>
      obtain ⟨element, id⟩ := p
      obtain ⟨hcontainer, hunrepeated⟩ := h.container _ List.mem_cons_self
      have hself := (lookup_eq_some_iff h.nodup id element).mpr List.mem_cons_self
      have hfind := h.agrees.find hself (h.occurs _ List.mem_cons_self)
      have hpending : element.containers + pending stack ≤ fuel + 1 := hfuel
      rw [convertLoop.eq_def]
      dsimp only
      rw [hfind]
      cases element with
      | array children =>
        obtain ⟨hready, hcomplete⟩ := h.array
        obtain ⟨-, hpushed⟩ := fillList_fresh hunrepeated next
        have hrounds := pending_append (fillList children next).pushed stack
        rw [Element.containers] at hpending
        exact (ih hready (by omega)).trans (congrArg Except.ok hcomplete)
      | object members =>
        obtain ⟨hready, hcomplete⟩ := h.object
        obtain ⟨-, hpushed, -⟩ := fillDict_fresh hunrepeated (compatible_nil members) next
        have hrounds := pending_append (fillDict members [] next).pushed stack
        rw [Element.containers] at hpending
        exact (ih hready (by omega)).trans (congrArg Except.ok hcomplete)
      | _ => cases hcontainer

/-- The conversion of an element in which no container is the value of a repeated key. -/
theorem convert_eq {json : Element δ} (hcontainer : json.isContainer) (h : json.Unrepeated) :
    convert json = .ok json.value := by
  have hready : Ready [(json, 0)] 1 (blank json 0) := by
    refine ⟨.pending Nat.one_pos (by simp [lookup]) hcontainer, by simp, ?_, ?_, ?_⟩ <;>
    · intro p hp
      rw [List.mem_singleton.mp hp]
      first | exact Nat.one_pos | exact ⟨hcontainer, h⟩ | exact .here (blank_id json 0)
  have hloop : convertLoop json.containers (blank json 0) 1 [(json, 0)] = .ok json.value := by
    have hself : lookup [(json, 0)] 0 = some json := by simp [lookup]
    rw [convertLoop_eq hready (by simp [pending]), complete_blank hself]
  cases json with
  | array children => exact hloop
  | object members => exact hloop
  | _ => cases hcontainer

end Sese.Json
