import Sese.Foundation.Runs
import Sese.Foundation.Threads

/-!
# The object pool

`sese::ObjectPool`: an object is lent in a `shared_ptr` whose deleter gives it back to the pool, or
deletes it if the pool is gone. The pool itself is counted: by its owners, by the threads that are
in `borrow`, and by the deleters that have locked their weak pointer; whoever drops the last of
these runs the destructor, which deletes what is in the queue. What a thread does with the queue
under the mutex is one step.
-/
namespace Sese.Util

open Foundation

universe u
variable {ι : Type u}

/-- Where a thread is. -/
inductive PoolPlace
  | outside
  /-- `borrow`, before `mutex.lock()`. -/
  | borrowTake
  /-- The queue was empty; before `new T`. -/
  | borrowNew
  | borrowReturn (object : ℕ)
  /-- `recycleCallback`, before `wk_pool.lock()`. -/
  | recycleLock (object : ℕ)
  /-- The pool is there; before `pool->mutex.lock()`. -/
  | recyclePush (object : ℕ)
  /-- Before the pointer to the pool is dropped. -/
  | recycleDrop
  /-- The pool is gone; before `delete to_recycle`. -/
  | recycleDelete (object : ℕ)
  deriving DecidableEq

structure ObjectPool (ι : Type u) where
  queue : List ℕ := []
  /-- The objects that there are. -/
  heap : ℕ → Bool := fun _ => false
  lent : List ℕ := []
  owners : ℕ := 1
  /-- `use_count()` of the pool. -/
  strong : ℕ := 1
  place : ι → PoolPlace := fun _ => .outside

inductive ObjectPoolEvent (ι : Type u)
  /-- The thread calls `borrow` on a pointer of its own. -/
  | borrows (i : ι)
  /-- The thread drops the last pointer to an object. -/
  | recycles (i : ι) (object : ℕ)
  /-- `new` gives an address. -/
  | allocates (i : ι) (object : ℕ)
  | advance (i : ι)
  /-- An owner of the pool copies its pointer. -/
  | copies
  /-- An owner of the pool drops its pointer. -/
  | drops

inductive ObjectPoolStop
  | elsewhere
  /-- `delete` of an object that is not there. -/
  | freed
  deriving DecidableEq

namespace PoolPlace

def carried : PoolPlace → Option ℕ
  | .borrowReturn a | .recycleLock a | .recyclePush a | .recycleDelete a => some a
  | _ => none

def pins : PoolPlace → ℕ
  | .borrowTake | .borrowNew | .borrowReturn _ | .recyclePush _ | .recycleDrop => 1
  | _ => 0

end PoolPlace

namespace ObjectPool

/-- `delete` of every object of a list. -/
def deleteAll (heap : ℕ → Bool) : List ℕ → Except ObjectPoolStop (ℕ → Bool)
  | [] => .ok heap
  | a :: objects =>
    if heap a then deleteAll (Function.update heap a false) objects else .error .freed

variable [DecidableEq ι]

def goTo (s : ObjectPool ι) (i : ι) (place : PoolPlace) : ObjectPool ι :=
  { s with place := Function.update s.place i place }

/-- A pointer to the pool is dropped, and with the last one the pool. -/
def dropPool (s : ObjectPool ι) : Except ObjectPoolStop (ObjectPool ι) :=
  if s.strong = 1 then
    match deleteAll s.heap s.queue with
    | .error stop => .error stop
    | .ok heap => .ok { s with strong := 0, queue := [], heap := heap }
  else .ok { s with strong := s.strong - 1 }

def advance (s : ObjectPool ι) (i : ι) : Except ObjectPoolStop (ObjectPool ι) :=
  match s.place i with
  | .outside | .borrowNew => .error .elsewhere
  | .borrowTake =>
    match s.queue with
    | [] => .ok (s.goTo i .borrowNew)
    | a :: queue => .ok ({ s with queue := queue }.goTo i (.borrowReturn a))
  | .borrowReturn a => ({ s with lent := a :: s.lent }.goTo i .outside).dropPool
  | .recycleLock a =>
    if s.strong = 0 then .ok (s.goTo i (.recycleDelete a))
    else .ok ({ s with strong := s.strong + 1 }.goTo i (.recyclePush a))
  | .recyclePush a => .ok ({ s with queue := s.queue ++ [a] }.goTo i .recycleDrop)
  | .recycleDrop => (s.goTo i .outside).dropPool
  | .recycleDelete a =>
    if s.heap a then .ok ({ s with heap := Function.update s.heap a false }.goTo i .outside)
    else .error .freed

def step (s : ObjectPool ι) : ObjectPoolEvent ι → Except ObjectPoolStop (ObjectPool ι)
  | .borrows i =>
    match s.place i with
    | .outside =>
      if s.owners = 0 then .error .elsewhere
      else .ok ({ s with strong := s.strong + 1 }.goTo i .borrowTake)
    | _ => .error .elsewhere
  | .recycles i a =>
    match s.place i with
    | .outside =>
      if a ∈ s.lent then .ok ({ s with lent := s.lent.erase a }.goTo i (.recycleLock a))
      else .error .elsewhere
    | _ => .error .elsewhere
  | .allocates i a =>
    match s.place i with
    | .borrowNew =>
      if s.heap a then .error .elsewhere
      else .ok ({ s with heap := Function.update s.heap a true }.goTo i (.borrowReturn a))
    | _ => .error .elsewhere
  | .advance i => s.advance i
  | .copies =>
    if s.owners = 0 then .error .elsewhere
    else .ok { s with owners := s.owners + 1, strong := s.strong + 1 }
  | .drops =>
    if s.owners = 0 then .error .elsewhere else { s with owners := s.owners - 1 }.dropPool

end ObjectPool

/-- In whose hand an object is. -/
inductive ObjectHand (ι : Type u)
  | free
  | pooled
  | lent
  | carried (i : ι)

namespace ObjectPool

/-- What holds between the steps: every object is in one hand, and the pool is there as long as
somebody counts on it. `extra` are the pointers that are being dropped. -/
structure Coherent [Fintype ι] (s : ObjectPool ι) (hand : ℕ → ObjectHand ι) (extra : ℕ) : Prop where
  free : ∀ a, hand a = .free ↔ s.heap a = false
  pooled : ∀ a, hand a = .pooled ↔ a ∈ s.queue
  lent : ∀ a, hand a = .lent ↔ a ∈ s.lent
  carried : ∀ i a, hand a = .carried i ↔ (s.place i).carried = some a
  queueNodup : s.queue.Nodup
  lentNodup : s.lent.Nodup
  count : s.strong = s.owners + ∑ i, (s.place i).pins + extra
  gone : s.strong = 0 → s.queue = []

theorem deleteAll_eq {heap : ℕ → Bool} {objects : List ℕ} (hnodup : objects.Nodup)
    (hheap : ∀ a ∈ objects, heap a = true) :
    deleteAll heap objects = .ok fun a => if a ∈ objects then false else heap a := by
  induction objects generalizing heap with
  | nil => simp [deleteAll]
  | cons b objects ih =>
    rw [List.nodup_cons] at hnodup
    rw [deleteAll, if_pos (hheap b List.mem_cons_self), ih hnodup.2]
    · congr 1
      funext a
      by_cases ha : a = b
      · subst ha
        simp
      · simp [ha]
    · intro a ha
      rw [Function.update_of_ne]
      · exact hheap a (List.mem_cons_of_mem b ha)
      · rintro rfl
        exact hnodup.1 ha

section Steps

variable [Fintype ι] {s s' : ObjectPool ι} {hand : ℕ → ObjectHand ι} {i : ι}
  {place : PoolPlace} {extra : ℕ}

theorem coherent_init : ({} : ObjectPool ι).Coherent (fun _ => .free) 0 where
  free := fun _ => ⟨fun _ => rfl, fun _ => rfl⟩
  pooled := fun _ => iff_of_false nofun List.not_mem_nil
  lent := fun _ => iff_of_false nofun List.not_mem_nil
  carried := fun _ _ => iff_of_false nofun nofun
  queueNodup := List.nodup_nil
  lentNodup := List.nodup_nil
  count := by simp [PoolPlace.pins]
  gone := fun _ => rfl

theorem Coherent.heap_ne_false (h : s.Coherent hand extra) {a : ℕ} (ha : hand a ≠ .free) :
    s.heap a ≠ false :=
  fun hnone => ha ((h.free a).mpr hnone)

theorem Coherent.heap_of_ne (h : s.Coherent hand extra) {a : ℕ} (ha : hand a ≠ .free) :
    s.heap a = true :=
  Bool.of_not_eq_false (h.heap_ne_false ha)

theorem Coherent.not_mem_queue (h : s.Coherent hand extra) {a : ℕ} (ha : hand a ≠ .pooled) :
    a ∉ s.queue :=
  fun hmem => ha ((h.pooled a).mpr hmem)

theorem Coherent.not_mem_lent (h : s.Coherent hand extra) {a : ℕ} (ha : hand a ≠ .lent) : a ∉ s.lent :=
  fun hmem => ha ((h.lent a).mpr hmem)

theorem Coherent.deleteAll_queue (h : s.Coherent hand extra) :
    deleteAll s.heap s.queue = .ok fun a => if a ∈ s.queue then false else s.heap a := by
  apply deleteAll_eq h.queueNodup
  intro a ha
  apply h.heap_of_ne
  rw [(h.pooled a).mpr ha]
  nofun

theorem Coherent.dropPool (h : s.Coherent hand 1) :
    ∃ s' hand', s.dropPool = .ok s' ∧ s'.Coherent hand' 0 := by
  have hcount := h.count
  unfold ObjectPool.dropPool
  split_ifs with hlast
  · rw [h.deleteAll_queue]
    refine ⟨_, fun a => if a ∈ s.queue then .free else hand a, rfl, ?_⟩
    constructor
    · intro a
      dsimp only
      by_cases ha : a ∈ s.queue
      · simp [ha]
      · simp [ha, h.free]
    · intro a
      dsimp only
      by_cases ha : a ∈ s.queue
      · simp [ha]
      · simp [ha, h.pooled]
    · intro a
      dsimp only
      by_cases ha : a ∈ s.queue
      · have hlent : a ∉ s.lent := by
          rw [← h.lent, (h.pooled a).mpr ha]
          nofun
        simp [ha, hlent]
      · simp [ha, h.lent]
    · intro j a
      dsimp only
      by_cases ha : a ∈ s.queue
      · have hcarried : (s.place j).carried ≠ some a := by
          rw [Ne, ← h.carried, (h.pooled a).mpr ha]
          nofun
        simp [ha, hcarried]
      · simp [ha, h.carried]
    · exact List.nodup_nil
    · exact h.lentNodup
    · dsimp only
      omega
    · exact fun _ => rfl
  · refine ⟨_, hand, rfl, h.free, h.pooled, h.lent, h.carried, h.queueNodup, h.lentNodup, ?_, ?_⟩
    · dsimp only
      omega
    · dsimp only
      omega

variable [DecidableEq ι]

theorem Coherent.change (h : s.Coherent hand extra) {b : ℕ} {new : ObjectHand ι} {extra' : ℕ}
    (hplace : s'.place = Function.update s.place i place)
    (hold : ∀ j, j ≠ i → hand b ≠ .carried j) (hnew : ∀ j, j ≠ i → new ≠ .carried j)
    (hfree : ∀ a, Function.update hand b new a = .free ↔ s'.heap a = false)
    (hpooled : ∀ a, Function.update hand b new a = .pooled ↔ a ∈ s'.queue)
    (hlent : ∀ a, Function.update hand b new a = .lent ↔ a ∈ s'.lent)
    (hcarried : ∀ a, Function.update hand b new a = .carried i ↔ place.carried = some a)
    (hqueue : s'.queue.Nodup) (hnodup : s'.lent.Nodup)
    (hcount : s'.strong + (s.place i).pins + s.owners + extra =
      s'.owners + s.strong + place.pins + extra') (hgone : s'.strong = 0 → s'.queue = []) :
    s'.Coherent (Function.update hand b new) extra' where
  free := hfree
  pooled := hpooled
  lent := hlent
  carried := by
    intro j a
    rw [hplace]
    by_cases hj : j = i
    · subst hj
      rw [Function.update_self]
      exact hcarried a
    · rw [Function.update_of_ne hj, ← h.carried]
      by_cases ha : a = b
      · subst ha
        rw [Function.update_self]
        exact iff_of_false (hnew j hj) (hold j hj)
      · rw [Function.update_of_ne ha]
  queueNodup := hqueue
  lentNodup := hnodup
  count := by
    have hsum := sum_update_add PoolPlace.pins s.place i place
    have hbefore := h.count
    rw [hplace]
    omega
  gone := hgone

theorem Coherent.move (h : s.Coherent hand extra) (strong owners : ℕ) {extra' : ℕ}
    (hcarried : place.carried = (s.place i).carried)
    (hcount : strong + (s.place i).pins + s.owners + extra = owners + s.strong + place.pins + extra')
    (hgone : strong = 0 → s.queue = []) :
    ({ s with strong := strong, owners := owners }.goTo i place).Coherent hand extra' where
  free := h.free
  pooled := h.pooled
  lent := h.lent
  carried := by
    intro j a
    rw [h.carried]
    by_cases hj : j = i
    · subst hj
      simp [goTo, hcarried]
    · simp [goTo, hj]
  queueNodup := h.queueNodup
  lentNodup := h.lentNodup
  count := by
    have hsum := sum_update_add PoolPlace.pins s.place i place
    have hbefore := h.count
    change strong = owners + ∑ k, (Function.update s.place i place k).pins + extra'
    omega
  gone := hgone

omit [DecidableEq ι] in
/-- What the threads hold of the pool is counted. -/
theorem Coherent.pins_le (h : s.Coherent hand extra) : (s.place i).pins ≤ s.strong := by
  have hsingle := Finset.single_le_sum (fun k _ => Nat.zero_le (s.place k).pins) (Finset.mem_univ i)
  have hcount := h.count
  omega

theorem Coherent.take (h : s.Coherent hand 0) {b : ℕ} {queue : List ℕ} (hi : s.place i = .borrowTake)
    (hqueue : s.queue = b :: queue) :
    ({ s with queue := queue }.goTo i (.borrowReturn b)).Coherent
      (Function.update hand b (.carried i)) 0 := by
  have hpooled : hand b = .pooled := (h.pooled b).mpr (by rw [hqueue]; exact List.mem_cons_self)
  have hnodup := h.queueNodup
  rw [hqueue, List.nodup_cons] at hnodup
  have hpins : (s.place i).pins = 1 := by rw [hi]; rfl
  refine h.change rfl (fun j _ => by rw [hpooled]; nofun) (fun j hj => ?_) ?_ ?_ ?_ ?_ hnodup.2
    h.lentNodup ?_ ?_
  · rintro ⟨⟩
    exact hj rfl
  · exact update_eq_iff (iff_of_false nofun (h.heap_ne_false (by rw [hpooled]; nofun))) fun a _ => h.free a
  · refine update_eq_iff (iff_of_false nofun hnodup.1) fun a ha => ?_
    rw [h.pooled, hqueue, List.mem_cons, or_iff_right ha]
    rfl
  · exact update_eq_iff (iff_of_false nofun (h.not_mem_lent (by rw [hpooled]; nofun))) fun a _ => h.lent a
  · refine update_eq_iff (iff_of_true rfl rfl) fun a ha => ?_
    rw [h.carried, hi]
    exact iff_of_false nofun fun hab => ha (Option.some.inj hab).symm
  · rw [hpins]
    simp only [goTo, PoolPlace.pins]
    omega
  · intro hgone
    have hempty := h.gone hgone
    rw [hqueue] at hempty
    cases hempty

theorem Coherent.allocate (h : s.Coherent hand 0) {b : ℕ} (hi : s.place i = .borrowNew)
    (hnone : s.heap b = false) :
    ({ s with heap := Function.update s.heap b true }.goTo i (.borrowReturn b)).Coherent
      (Function.update hand b (.carried i)) 0 := by
  have hfree : hand b = .free := (h.free b).mpr hnone
  have hpins : (s.place i).pins = 1 := by rw [hi]; rfl
  refine h.change rfl (fun j _ => by rw [hfree]; nofun) (fun j hj => ?_) ?_ ?_ ?_ ?_ h.queueNodup
    h.lentNodup ?_ h.gone
  · rintro ⟨⟩
    exact hj rfl
  · refine update_eq_iff (iff_of_false nofun (by simp [goTo])) fun a ha => ?_
    rw [h.free]
    simp [goTo, ha]
  · exact update_eq_iff (iff_of_false nofun (h.not_mem_queue (by rw [hfree]; nofun))) fun a _ => h.pooled a
  · exact update_eq_iff (iff_of_false nofun (h.not_mem_lent (by rw [hfree]; nofun))) fun a _ => h.lent a
  · refine update_eq_iff (iff_of_true rfl rfl) fun a ha => ?_
    rw [h.carried, hi]
    exact iff_of_false nofun fun hab => ha (Option.some.inj hab).symm
  · rw [hpins]
    simp only [goTo, PoolPlace.pins]
    omega

theorem Coherent.lend (h : s.Coherent hand 0) {b : ℕ} (hi : s.place i = .borrowReturn b) :
    ({ s with lent := b :: s.lent }.goTo i .outside).Coherent (Function.update hand b .lent) 1 := by
  have hcarried : hand b = .carried i := (h.carried i b).mpr (by rw [hi]; rfl)
  have hpins : (s.place i).pins = 1 := by rw [hi]; rfl
  have hnew : b ∉ s.lent := h.not_mem_lent (by rw [hcarried]; nofun)
  refine h.change rfl (fun j hj => ?_) (fun j _ => nofun) ?_ ?_ ?_ ?_ h.queueNodup
    (List.nodup_cons.mpr ⟨hnew, h.lentNodup⟩) ?_ h.gone
  · rw [hcarried]
    rintro ⟨⟩
    exact hj rfl
  · exact update_eq_iff (iff_of_false nofun (h.heap_ne_false (by rw [hcarried]; nofun))) fun a _ => h.free a
  · exact update_eq_iff (iff_of_false nofun (h.not_mem_queue (by rw [hcarried]; nofun))) fun a _ => h.pooled a
  · refine update_eq_iff (iff_of_true rfl List.mem_cons_self) fun a ha => ?_
    rw [h.lent]
    exact (List.mem_cons.trans (or_iff_right ha)).symm
  · refine update_eq_iff (iff_of_false nofun nofun) fun a ha => ?_
    rw [h.carried, hi]
    exact iff_of_false (fun hab => ha (Option.some.inj hab).symm) nofun
  · rw [hpins]
    simp only [goTo, PoolPlace.pins]
    omega

theorem Coherent.recycle (h : s.Coherent hand 0) {b : ℕ} (hi : s.place i = .outside)
    (hlent : b ∈ s.lent) :
    ({ s with lent := s.lent.erase b }.goTo i (.recycleLock b)).Coherent
      (Function.update hand b (.carried i)) 0 := by
  have hhand : hand b = .lent := (h.lent b).mpr hlent
  have hpins : (s.place i).pins = 0 := by rw [hi]; rfl
  refine h.change rfl (fun j _ => by rw [hhand]; nofun) (fun j hj => ?_) ?_ ?_ ?_ ?_ h.queueNodup
    (h.lentNodup.erase b) ?_ h.gone
  · rintro ⟨⟩
    exact hj rfl
  · exact update_eq_iff (iff_of_false nofun (h.heap_ne_false (by rw [hhand]; nofun))) fun a _ => h.free a
  · exact update_eq_iff (iff_of_false nofun (h.not_mem_queue (by rw [hhand]; nofun))) fun a _ => h.pooled a
  · refine update_eq_iff (iff_of_false nofun (h.lentNodup.not_mem_erase)) fun a ha => ?_
    rw [h.lent]
    exact (List.mem_erase_of_ne ha).symm
  · refine update_eq_iff (iff_of_true rfl rfl) fun a ha => ?_
    rw [h.carried, hi]
    exact iff_of_false nofun fun hab => ha (Option.some.inj hab).symm
  · rw [hpins]
    simp only [goTo, PoolPlace.pins]
    omega

theorem Coherent.give (h : s.Coherent hand 0) {b : ℕ} (hi : s.place i = .recyclePush b) :
    ({ s with queue := s.queue ++ [b] }.goTo i .recycleDrop).Coherent
      (Function.update hand b .pooled) 0 := by
  have hcarried : hand b = .carried i := (h.carried i b).mpr (by rw [hi]; rfl)
  have hpins : (s.place i).pins = 1 := by rw [hi]; rfl
  have hle := h.pins_le (i := i)
  have hnew : b ∉ s.queue := h.not_mem_queue (by rw [hcarried]; nofun)
  refine h.change rfl (fun j hj => ?_) (fun j _ => nofun) ?_ ?_ ?_ ?_ ?_ h.lentNodup ?_ ?_
  · rw [hcarried]
    rintro ⟨⟩
    exact hj rfl
  · exact update_eq_iff (iff_of_false nofun (h.heap_ne_false (by rw [hcarried]; nofun))) fun a _ => h.free a
  · refine update_eq_iff (iff_of_true rfl (by simp [goTo])) fun a ha => ?_
    simp [h.pooled, goTo, ha]
  · exact update_eq_iff (iff_of_false nofun (h.not_mem_lent (by rw [hcarried]; nofun))) fun a _ => h.lent a
  · refine update_eq_iff (iff_of_false nofun nofun) fun a ha => ?_
    rw [h.carried, hi]
    exact iff_of_false (fun hab => ha (Option.some.inj hab).symm) nofun
  · change (s.queue ++ [b]).Nodup
    rw [List.nodup_append]
    refine ⟨h.queueNodup, List.nodup_singleton b, ?_⟩
    rintro a ha c hc rfl
    exact hnew (List.mem_singleton.mp hc ▸ ha)
  · rw [hpins]
    simp only [goTo, PoolPlace.pins]
    omega
  · intro hgone
    change s.strong = 0 at hgone
    omega

theorem Coherent.delete (h : s.Coherent hand 0) {b : ℕ} (hi : s.place i = .recycleDelete b) :
    s.heap b = true ∧ ({ s with heap := Function.update s.heap b false }.goTo i .outside).Coherent
      (Function.update hand b .free) 0 := by
  have hcarried : hand b = .carried i := (h.carried i b).mpr (by rw [hi]; rfl)
  have hpins : (s.place i).pins = 0 := by rw [hi]; rfl
  refine ⟨h.heap_of_ne (by rw [hcarried]; nofun), ?_⟩
  refine h.change rfl (fun j hj => ?_) (fun j _ => nofun) ?_ ?_ ?_ ?_ h.queueNodup h.lentNodup ?_ h.gone
  · rw [hcarried]
    rintro ⟨⟩
    exact hj rfl
  · refine update_eq_iff (iff_of_true rfl (by simp [goTo])) fun a ha => ?_
    rw [h.free]
    simp [goTo, ha]
  · exact update_eq_iff (iff_of_false nofun (h.not_mem_queue (by rw [hcarried]; nofun))) fun a _ => h.pooled a
  · exact update_eq_iff (iff_of_false nofun (h.not_mem_lent (by rw [hcarried]; nofun))) fun a _ => h.lent a
  · refine update_eq_iff (iff_of_false nofun nofun) fun a ha => ?_
    rw [h.carried, hi]
    exact iff_of_false (fun hab => ha (Option.some.inj hab).symm) nofun
  · rw [hpins]
    simp only [goTo, PoolPlace.pins]
    omega

/-- A step cannot be taken, or keeps every object in one hand. -/
def StepsWell (result : Except ObjectPoolStop (ObjectPool ι)) : Prop :=
  result = .error .elsewhere ∨ ∃ s' hand', result = .ok s' ∧ s'.Coherent hand' 0

omit [DecidableEq ι] in
theorem stepsWell_ok {s' : ObjectPool ι} {hand' : ℕ → ObjectHand ι} (h : s'.Coherent hand' 0) :
    StepsWell (.ok s') :=
  .inr ⟨s', hand', rfl, h⟩

omit [DecidableEq ι] in
theorem Coherent.stepsWell_drop (h : s.Coherent hand 1) : StepsWell s.dropPool := by
  obtain ⟨s', hand', hdrop, hcoherent⟩ := h.dropPool
  exact .inr ⟨s', hand', hdrop, hcoherent⟩

theorem Coherent.advance (h : s.Coherent hand 0) (i : ι) : StepsWell (s.advance i) := by
  unfold ObjectPool.advance
  cases hi : s.place i with
  | outside => exact .inl rfl
  | borrowNew => exact .inl rfl
  | borrowTake =>
    cases hqueue : s.queue with
    | nil =>
      refine stepsWell_ok (h.move s.strong s.owners ?_ ?_ h.gone) <;> rw [hi]
      · rfl
      · simp only [PoolPlace.pins]
        omega
    | cons a queue => exact stepsWell_ok (h.take hi hqueue)
  | borrowReturn a => exact (h.lend hi).stepsWell_drop
  | recycleLock a =>
    dsimp only
    split_ifs with hgone
    · refine stepsWell_ok (h.move s.strong s.owners ?_ ?_ h.gone) <;> rw [hi]
      · rfl
      · simp only [PoolPlace.pins]
        omega
    · refine stepsWell_ok (h.move (s.strong + 1) s.owners ?_ ?_ nofun) <;> rw [hi]
      · rfl
      · simp only [PoolPlace.pins]
        omega
  | recyclePush a => exact stepsWell_ok (h.give hi)
  | recycleDrop =>
    refine Coherent.stepsWell_drop (?_ : Coherent _ hand 1)
    refine h.move s.strong s.owners ?_ ?_ h.gone <;> rw [hi]
    · rfl
    · simp only [PoolPlace.pins]
      omega
  | recycleDelete a =>
    obtain ⟨hheap, hcoherent⟩ := h.delete hi
    dsimp only
    rw [if_pos hheap]
    exact stepsWell_ok hcoherent

theorem Coherent.step (h : s.Coherent hand 0) (e : ObjectPoolEvent ι) : StepsWell (s.step e) := by
  cases e with
  | borrows i =>
    simp only [ObjectPool.step]
    cases hi : s.place i with
    | outside =>
      dsimp only
      split_ifs with howners
      · exact .inl rfl
      · refine stepsWell_ok (h.move (s.strong + 1) s.owners ?_ ?_ nofun) <;> rw [hi]
        · rfl
        · simp only [PoolPlace.pins]
          omega
    | _ => exact .inl rfl
  | recycles i a =>
    simp only [ObjectPool.step]
    cases hi : s.place i with
    | outside =>
      dsimp only
      split_ifs with hlent
      · exact stepsWell_ok (h.recycle hi hlent)
      · exact .inl rfl
    | _ => exact .inl rfl
  | allocates i a =>
    simp only [ObjectPool.step]
    cases hi : s.place i with
    | borrowNew =>
      dsimp only
      split_ifs with hheap
      · exact .inl rfl
      · exact stepsWell_ok (h.allocate hi (Bool.not_eq_true _ ▸ hheap))
    | _ => exact .inl rfl
  | advance i => exact h.advance i
  | copies =>
    simp only [ObjectPool.step]
    split_ifs with howners
    · exact .inl rfl
    · refine stepsWell_ok (?_ : Coherent _ hand 0)
      refine ⟨h.free, h.pooled, h.lent, h.carried, h.queueNodup, h.lentNodup, ?_, nofun⟩
      have hcount := h.count
      dsimp only
      omega
  | drops =>
    simp only [ObjectPool.step]
    split_ifs with howners
    · exact .inl rfl
    · refine Coherent.stepsWell_drop (?_ : Coherent _ hand 1)
      refine ⟨h.free, h.pooled, h.lent, h.carried, h.queueNodup, h.lentNodup, ?_, h.gone⟩
      have hcount := h.count
      dsimp only
      omega

end Steps

variable [Fintype ι] [DecidableEq ι]

/-- Whatever threads borrow and give back at the same time, and whenever the owners drop the pool:
no object is lent twice or is in the queue while it is lent, nothing is deleted twice, and once
the pool and all its objects are given back, every object is deleted. -/
theorem lent_once (es : List (ObjectPoolEvent ι)) (s : ObjectPool ι)
    (hrun : RunWhere step Unrestricted {} es s) :
    s.lent.Nodup ∧ (∀ a ∈ s.lent, a ∉ s.queue ∧ s.heap a = true) ∧ (∀ e, s.step e ≠ .error .freed) ∧
      (s.owners = 0 → s.lent = [] → (∀ i, s.place i = .outside) → ∀ a, s.heap a = false) := by
  obtain ⟨hand, h⟩ : ∃ hand, s.Coherent hand 0 := by
    apply hrun.invariant fun s => ∃ hand, s.Coherent hand 0
    · rintro s e t ⟨hand, h⟩ - hstep
      rcases h.step e with herror | ⟨s', hand', hok, hcoherent⟩
      · rw [herror] at hstep
        cases hstep
      · rw [hstep] at hok
        cases hok
        exact ⟨hand', hcoherent⟩
    · exact ⟨_, coherent_init⟩
  refine ⟨h.lentNodup, ?_, ?_, ?_⟩
  · intro a ha
    have hlent := (h.lent a).mpr ha
    refine ⟨?_, h.heap_of_ne (by rw [hlent]; nofun)⟩
    rw [← h.pooled, hlent]
    nofun
  · intro e hfreed
    rcases h.step e with herror | ⟨s', hand', hok, -⟩
    · rw [herror] at hfreed
      cases hfreed
    · rw [hok] at hfreed
      cases hfreed
  · intro howners hlent hquiet a
    have hcount := h.count
    have hpins : ∑ i, (s.place i).pins = 0 := Finset.sum_eq_zero fun i _ => by rw [hquiet i]; rfl
    have hqueue := h.gone (by omega)
    rw [← h.free]
    cases hhand : hand a with
    | free => rfl
    | pooled =>
      have hmem := (h.pooled a).mp hhand
      rw [hqueue] at hmem
      cases hmem
    | lent =>
      have hmem := (h.lent a).mp hhand
      rw [hlent] at hmem
      cases hmem
    | carried i =>
      have hcarried := (h.carried i a).mp hhand
      rw [hquiet] at hcarried
      cases hcarried

theorem lent_once_sample :
    ∃ s, RunWhere step Unrestricted ({} : ObjectPool Bool)
        [.borrows true, .advance true, .allocates true 3, .advance true, .drops, .recycles false 3,
          .advance false, .advance false] s ∧
      s.lent.Nodup ∧ ∀ a, s.heap a = false := by
  obtain ⟨s, hrun, hstate⟩ := exists_run_of_any step Unrestricted ({} : ObjectPool Bool)
    [.borrows true, .advance true, .allocates true 3, .advance true, .drops, .recycles false 3,
      .advance false, .advance false]
    (fun s => s.owners == 0 && s.lent == [] && decide (s.place true = .outside) &&
      decide (s.place false = .outside)) (by decide)
  simp only [Bool.and_eq_true, beq_iff_eq, decide_eq_true_eq] at hstate
  have hlent := lent_once _ s hrun
  refine ⟨s, hrun, hlent.1, hlent.2.2.2 hstate.1.1.1 hstate.1.1.2 ?_⟩
  intro i
  cases i
  · exact hstate.2
  · exact hstate.1.2

end ObjectPool
end Sese.Util
