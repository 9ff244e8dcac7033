/-
# The id allocator

`IdAlloc` of `libs/id-alloc/src/lib.rs`: a bitmap of the allocated ids, and the
cached position of the first free one, from which all searches start.  Five
operations update the cache by different rules.

The bit vector is a third-party type and stands here as a list of bits with checked
access.  What the allocator is for is said without bits (`IdStep`): a set of ids, from
which the smallest free id, the lowest free run or a given id is taken.  The result is
that every operation, in every state that a sequence of permitted operations reaches,
returns and is such a step, and that the cache is always right.
-/
import Vostd.Lib.Exec
import Vostd.Lib.System

namespace Vostd

open Exec

/-! ## Bit vectors -/

/-- `bitset[id]`, which panics outside the vector. -/
def getBit (bits : List Bool) (id : ℕ) : Exec Bool := Exec.unwrap bits[id]?

/-- `bitset.set(id, value)`. -/
def setBit (bits : List Bool) (id : ℕ) (value : Bool) : Exec (List Bool) := do
  Exec.check (id < bits.length)
  .ok (bits.set id value)

/-- `first_zero`. -/
def firstZero (bits : List Bool) : Option ℕ := bits.findIdx? (fun b => !b)

/-! ## The code -/

/-- `Range<usize>`. -/
structure IdRange where
  start : ℕ
  stop : ℕ
  deriving DecidableEq, Repr

/-- `IdAlloc`. -/
structure IdAlloc where
  bitset : List Bool
  firstAvailableId : ℕ
  deriving DecidableEq, Repr

namespace IdAlloc

/-- `with_capacity`. -/
def withCapacity (capacity : ℕ) : IdAlloc := ⟨List.replicate capacity false, 0⟩

/-- `is_allocated`. -/
def isAllocated (a : IdAlloc) (id : ℕ) : Exec Bool := getBit a.bitset id

/-- `update_first_available_id`: the first zero at or after `start`. -/
def updateFirstAvailableId (a : IdAlloc) (start : ℕ) : Exec IdAlloc := do
  let len := a.bitset.length
  Exec.check (start ≤ len)
  match firstZero (a.bitset.drop start) with
  | some offset => do
      let first ← Exec.add start offset
      .ok { a with firstAvailableId := first }
  | none => .ok { a with firstAvailableId := len }

/-- `alloc`. -/
def alloc (a : IdAlloc) : Exec (Option ℕ × IdAlloc) :=
  if a.firstAvailableId < a.bitset.length then do
    let id := a.firstAvailableId
    let bits ← setBit a.bitset id true
    let next ← Exec.add id 1
    let a ← updateFirstAvailableId { a with bitset := bits } next
    .ok (some id, a)
  else .ok (none, a)

/-- The scan of `alloc_consecutive`: extends the range of zeros, or starts anew behind
a one. -/
def scanRun (bits : List Bool) (count : ℕ) : ℕ → IdRange → Exec IdRange
  | 0, _ => .error .outOfFuel
  | fuel + 1, r =>
      if r.stop - r.start < count ∧ r.stop < bits.length then do
        let allocated ← getBit bits r.stop
        let next ← Exec.add r.stop 1
        if !allocated then scanRun bits count fuel ⟨r.start, next⟩
        else scanRun bits count fuel ⟨next, next⟩
      else .ok r

/-- `alloc_consecutive`. -/
def allocConsecutive (a : IdAlloc) (count : ℕ) : Exec (Option IdRange × IdAlloc) :=
  if count = 0 then .ok (none, a)
  -- `checked_add`
  else if 2 ^ 64 ≤ a.firstAvailableId + count then .ok (none, a)
  else if a.bitset.length < a.firstAvailableId + count then .ok (none, a)
  else do
    let first ← Exec.add a.firstAvailableId 1
    let r ← scanRun a.bitset count (a.bitset.length + 1) ⟨a.firstAvailableId, first⟩
    if r.stop - r.start < count then .ok (none, a)
    else do
      let bits ← Exec.forRange (fun id bits => setBit bits id true) r.start (r.stop - r.start)
        a.bitset
      let a := { a with bitset := bits }
      if ← a.isAllocated a.firstAvailableId then do
        let a ← updateFirstAvailableId a r.stop
        .ok (some r, a)
      else .ok (some r, a)

/-- `free_consecutive`. -/
def freeConsecutive (a : IdAlloc) (r : IdRange) : Exec IdAlloc :=
  if r.stop ≤ r.start then .ok a
  else do
    let bits ← Exec.forRange (fun id bits => do
        let allocated ← getBit bits id
        Exec.check (allocated = true)
        setBit bits id false) r.start (r.stop - r.start) a.bitset
    .ok ⟨bits, if r.start < a.firstAvailableId then r.start else a.firstAvailableId⟩

/-- `free`. -/
def free (a : IdAlloc) (id : ℕ) : Exec IdAlloc := do
  let allocated ← a.isAllocated id
  Exec.check (allocated = true)
  let bits ← setBit a.bitset id false
  .ok ⟨bits, if id < a.firstAvailableId then id else a.firstAvailableId⟩

/-- `alloc_specific`. -/
def allocSpecific (a : IdAlloc) (id : ℕ) : Exec (Option ℕ × IdAlloc) := do
  if ← a.isAllocated id then .ok (none, a)
  else do
    let bits ← setBit a.bitset id true
    let a := { a with bitset := bits }
    if id = a.firstAvailableId then do
      let next ← Exec.add id 1
      let a ← updateFirstAvailableId a next
      .ok (some id, a)
    else .ok (some id, a)

end IdAlloc

/-! ## What the allocator is for -/

/-- The operations. -/
inductive IdOp : Type where
  | alloc
  | allocConsecutive (count : ℕ)
  | allocSpecific (id : ℕ)
  | free (id : ℕ)
  | freeConsecutive (r : IdRange)
  deriving DecidableEq, Repr

/-- Their results. -/
inductive IdRes : Type where
  | id (res : Option ℕ)
  | range (res : Option IdRange)
  | done
  deriving DecidableEq, Repr

/-- The results that say that nothing was allocated. -/
def IdRes.Failed : IdRes → Prop
  | .id res => res = none
  | .range res => res = none
  | .done => False

/-- One operation. -/
def IdAlloc.perform (a : IdAlloc) : IdOp → Exec (IdRes × IdAlloc)
  | .alloc => do
      let (res, a) ← a.alloc
      .ok (.id res, a)
  | .allocConsecutive count => do
      let (res, a) ← a.allocConsecutive count
      .ok (.range res, a)
  | .allocSpecific id => do
      let (res, a) ← a.allocSpecific id
      .ok (.id res, a)
  | .free id => do
      let a ← a.free id
      .ok (.done, a)
  | .freeConsecutive r => do
      let a ← a.freeConsecutive r
      .ok (.done, a)

/-- A run of `count` free ids. -/
def FreeRun (capacity : ℕ) (S : Set ℕ) (count start : ℕ) : Prop :=
  start + count ≤ capacity ∧ ∀ i, start ≤ i → i < start + count → i ∉ S

/-- The calls that an allocator with the allocated ids `S` permits. -/
def IdOp.Permitted (capacity : ℕ) (S : Set ℕ) : IdOp → Prop
  | .alloc => True
  | .allocConsecutive count => 0 < count
  | .allocSpecific id => id < capacity
  | .free id => id ∈ S
  | .freeConsecutive r => ∀ i, r.start ≤ i → i < r.stop → i ∈ S

/-- **What the allocator is for**: the steps on the set of allocated ids. -/
inductive IdStep (capacity : ℕ) : Set ℕ → IdOp → IdRes → Set ℕ → Prop
  | alloc {S i} (h : IsLeast {i | i < capacity ∧ i ∉ S} i) :
      IdStep capacity S .alloc (.id (some i)) (insert i S)
  | allocNone {S} (h : ∀ i, i < capacity → i ∈ S) : IdStep capacity S .alloc (.id none) S
  | consecutive {S count s} (h : IsLeast {s | FreeRun capacity S count s} s) :
      IdStep capacity S (.allocConsecutive count) (.range (some ⟨s, s + count⟩))
        (S ∪ Set.Ico s (s + count))
  | consecutiveNone {S count} (h : ∀ s, ¬FreeRun capacity S count s) :
      IdStep capacity S (.allocConsecutive count) (.range none) S
  | specific {S id} (h : id ∉ S) :
      IdStep capacity S (.allocSpecific id) (.id (some id)) (insert id S)
  | specificNone {S id} (h : id ∈ S) : IdStep capacity S (.allocSpecific id) (.id none) S
  | free {S id} : IdStep capacity S (.free id) .done (S \ {id})
  | freeConsecutive {S r} :
      IdStep capacity S (.freeConsecutive r) .done (S \ Set.Ico r.start r.stop)

/-- The ids whose bit is set. -/
def allocatedIds (bits : List Bool) : Set ℕ := {i | bits[i]? = some true}

/-- An allocator in use: permitted calls, one after the other. -/
def idSystem (capacity : ℕ) : System IdAlloc IdOp where
  init := fun a => a = IdAlloc.withCapacity capacity
  step := fun a op a' => op.Permitted capacity (allocatedIds a.bitset) ∧
    ∃ res, a.perform op = .ok (res, a')

/-! ## Bits and sets -/

section

variable {A : Fault → Prop} {bits : List Bool} {id i : ℕ}

theorem lt_length_of_mem (h : i ∈ allocatedIds bits) : i < bits.length :=
  (List.getElem?_eq_some_iff.mp h).1

theorem allocatedIds_set_true (h : id < bits.length) :
    allocatedIds (bits.set id true) = insert id (allocatedIds bits) := by
  ext i
  show (bits.set id true)[i]? = some true ↔ i = id ∨ bits[i]? = some true
  by_cases hi : i = id
  · subst hi
    simp [h]
  · rw [List.getElem?_set_ne (fun h => hi h.symm)]
    simp [hi]

theorem allocatedIds_set_false : allocatedIds (bits.set id false) = allocatedIds bits \ {id} := by
  ext i
  show (bits.set id false)[i]? = some true ↔ bits[i]? = some true ∧ i ≠ id
  by_cases hi : i = id
  · subst hi
    rw [List.getElem?_set_self']
    cases bits[i]? <;> simp
  · rw [List.getElem?_set_ne (fun h => hi h.symm)]
    simp [hi]

theorem post_getBit (h : id < bits.length) :
    Post A (getBit bits id) (fun b => b = true ↔ id ∈ allocatedIds bits) := by
  unfold getBit allocatedIds
  rw [List.getElem?_eq_getElem h]
  show bits[id] = true ↔ bits[id]? = some true
  rw [List.getElem?_eq_getElem h, Option.some.injEq]

theorem post_setBit (h : id < bits.length) (value : Bool) :
    Post A (setBit bits id value) (fun b => b = bits.set id value) := by
  unfold setBit
  exact Post.bind (post_check (fun hn => absurd h hn)) (fun _ _ => rfl)

/-- The loop that sets the bits of a range. -/
theorem post_setRange {s n : ℕ} (h : s + n ≤ bits.length) :
    Post A (forRange (fun id bits => setBit bits id true) s n bits) (fun b =>
      b.length = bits.length ∧ allocatedIds b = allocatedIds bits ∪ Set.Ico s (s + n)) := by
  refine post_forRange (fun i b => b.length = bits.length ∧
    allocatedIds b = allocatedIds bits ∪ Set.Ico s i) n s bits ⟨rfl, by simp⟩ ?_
  rintro i b hsi hi ⟨hlen, hb⟩
  refine (post_setBit (by omega) true).mono ?_
  rintro _ rfl
  rw [List.length_set, allocatedIds_set_true (by omega), hb]
  refine ⟨hlen, ?_⟩
  ext j
  simp only [Set.mem_insert_iff, Set.mem_union, Set.mem_Ico]
  constructor
  · rintro (rfl | hj | ⟨h1, h2⟩)
    · exact Or.inr ⟨hsi, by omega⟩
    · exact Or.inl hj
    · exact Or.inr ⟨h1, by omega⟩
  · rintro (hj | ⟨h1, h2⟩)
    · exact Or.inr (Or.inl hj)
    · rcases Nat.lt_succ_iff_lt_or_eq.mp h2 with h2 | rfl
      · exact Or.inr (Or.inr ⟨h1, h2⟩)
      · exact Or.inl rfl

/-- The loop that clears the bits of an allocated range. -/
theorem post_clearRange {s n : ℕ} (h : ∀ i, s ≤ i → i < s + n → i ∈ allocatedIds bits) :
    Post A (forRange (fun id bits => do
        let allocated ← getBit bits id
        Exec.check (allocated = true)
        setBit bits id false) s n bits) (fun b =>
      b.length = bits.length ∧ allocatedIds b = allocatedIds bits \ Set.Ico s (s + n)) := by
  refine post_forRange (fun i b => b.length = bits.length ∧
    allocatedIds b = allocatedIds bits \ Set.Ico s i) n s bits ⟨rfl, by simp⟩ ?_
  rintro i b hsi hi ⟨hlen, hb⟩
  have hmem : i ∈ allocatedIds b := by
    rw [hb]
    exact ⟨h i hsi hi, fun hico => lt_irrefl i hico.2⟩
  have hib := lt_length_of_mem hmem
  refine Post.bind (post_getBit hib) ?_
  intro allocated hal
  refine Post.bind (post_check (fun hn => absurd (hal.mpr hmem) hn)) ?_
  intro _ _
  refine (post_setBit hib false).mono ?_
  rintro _ rfl
  rw [List.length_set, allocatedIds_set_false, hb]
  refine ⟨hlen, ?_⟩
  ext j
  simp only [Set.mem_sdiff, Set.mem_Ico, Set.mem_singleton_iff]
  constructor
  · rintro ⟨⟨hj, hout⟩, hne⟩
    exact ⟨hj, fun hin => hout ⟨hin.1, by omega⟩⟩
  · rintro ⟨hj, hout⟩
    exact ⟨⟨hj, fun hin => hout ⟨hin.1, by omega⟩⟩, fun hji => hout ⟨by omega, by omega⟩⟩

end

/-! ## The cache -/

/-- `first` is the smallest free id, or the capacity. -/
structure FirstFree (bits : List Bool) (first : ℕ) : Prop where
  le : first ≤ bits.length
  below : ∀ i, i < first → i ∈ allocatedIds bits
  free : first ∉ allocatedIds bits

section

variable {A : Fault → Prop} {bits : List Bool} {a : IdAlloc} {capacity : ℕ}

/-- `update_first_available_id` finds the first zero if there is none before `start`. -/
theorem post_updateFirstAvailableId {start : ℕ} (hlen : a.bitset.length < 2 ^ 64)
    (hstart : start ≤ a.bitset.length) (hbelow : ∀ i, i < start → i ∈ allocatedIds a.bitset) :
    Post A (a.updateFirstAvailableId start) (fun a' =>
      a'.bitset = a.bitset ∧ FirstFree a.bitset a'.firstAvailableId) := by
  unfold IdAlloc.updateFirstAvailableId
  refine Post.bind (post_check (fun hn => absurd hstart hn)) ?_
  intro _ _
  cases hz : firstZero (a.bitset.drop start) with
  | none =>
      refine ⟨rfl, le_rfl, ?_, fun hmem => lt_irrefl _ (lt_length_of_mem hmem)⟩
      intro i hi
      simp only at hi
      by_cases his : i < start
      · exact hbelow i his
      · have hbit := List.findIdx?_eq_none_iff.mp hz a.bitset[i]
          (by rw [List.mem_drop_iff_getElem]; exact ⟨i - start, by omega, by congr 1; omega⟩)
        show a.bitset[i]? = some true
        rw [List.getElem?_eq_getElem hi]
        simpa using hbit
  | some offset =>
      obtain ⟨hoff, hbit, hbefore⟩ := List.findIdx?_eq_some_iff_getElem.mp hz
      rw [List.length_drop] at hoff
      refine Post.bind (post_add (fun hov => by omega)) ?_
      rintro _ ⟨rfl, -⟩
      refine ⟨rfl, by simp only; omega, ?_, ?_⟩
      · intro i hi
        simp only at hi
        by_cases his : i < start
        · exact hbelow i his
        · have hone := hbefore (i - start) (by omega)
          rw [List.getElem_drop] at hone
          show a.bitset[i]? = some true
          rw [List.getElem?_eq_getElem (by omega)]
          simpa [show start + (i - start) = i from by omega] using hone
      · rw [List.getElem_drop] at hbit
        show ¬a.bitset[start + offset]? = some true
        rw [List.getElem?_eq_getElem (by omega)]
        simpa using hbit

/-! ## The operations -/

/-- **The invariant**: the bitmap has the given capacity, and the cache is right. -/
structure IdAllocOK (capacity : ℕ) (a : IdAlloc) : Prop where
  length : a.bitset.length = capacity
  first : FirstFree a.bitset a.firstAvailableId

/-- What an operation does: it keeps the invariant and is a step on the set of ids, and
it leaves the allocator as it is when it fails. -/
def IdPost (capacity : ℕ) (a : IdAlloc) (op : IdOp) (r : IdRes × IdAlloc) : Prop :=
  IdAllocOK capacity r.2 ∧
    IdStep capacity (allocatedIds a.bitset) op r.1 (allocatedIds r.2.bitset) ∧
    (r.1.Failed → r.2 = a)

/-- Allocating other ids leaves the first free id. -/
theorem FirstFree.grow {bits' : List Bool} {first : ℕ} (h : FirstFree bits first)
    (hlen : bits'.length = bits.length) (hsub : allocatedIds bits ⊆ allocatedIds bits')
    (hfree : first ∉ allocatedIds bits') : FirstFree bits' first :=
  ⟨by rw [hlen]; exact h.le, fun i hi => hsub (h.below i hi), hfree⟩

/-- Freeing ids from `s` on moves the first free id to `s` if that is smaller. -/
theorem FirstFree.release {bits' : List Bool} {first s : ℕ} {T : Set ℕ} (h : FirstFree bits first)
    (hlen : bits'.length = bits.length) (hbits : allocatedIds bits' = allocatedIds bits \ T)
    (hs : s ∈ T) (hT : ∀ i ∈ T, s ≤ i) :
    FirstFree bits' (if s < first then s else first) := by
  have hle := h.le
  by_cases hsf : s < first
  · rw [if_pos hsf]
    refine ⟨by omega, ?_, ?_⟩
    · intro i hi
      rw [hbits]
      exact ⟨h.below i (by omega), fun hiT => absurd (hT i hiT) (by omega)⟩
    · rw [hbits]
      exact fun hmem => hmem.2 hs
  · rw [if_neg hsf]
    refine ⟨by omega, ?_, ?_⟩
    · intro i hi
      rw [hbits]
      exact ⟨h.below i hi, fun hiT => absurd (hT i hiT) (by omega)⟩
    · rw [hbits]
      exact fun hmem => h.free hmem.1

/-- Taking the first free id makes the next ones allocated up to it. -/
theorem FirstFree.below_insert {first : ℕ} (h : FirstFree bits first) (hlt : first < bits.length) :
    ∀ i, i < first + 1 → i ∈ allocatedIds (bits.set first true) := by
  intro i hi
  rw [allocatedIds_set_true hlt]
  rcases Nat.lt_succ_iff_lt_or_eq.mp hi with hi | rfl
  · exact Or.inr (h.below i hi)
  · exact Or.inl rfl

theorem post_idAlloc (h : IdAllocOK capacity a) (hcap : capacity < 2 ^ 64) :
    Post A (a.perform .alloc) (IdPost capacity a .alloc) := by
  have hlen := h.length
  have hfirst := h.first
  show Post A (a.alloc >>= _) _
  unfold IdAlloc.alloc
  by_cases hlt : a.firstAvailableId < a.bitset.length
  · rw [if_pos hlt]
    simp only [bind_assoc]
    refine Post.bind (post_setBit hlt true) ?_
    rintro _ rfl
    refine Post.bind (post_add (fun hov => by omega)) ?_
    rintro _ ⟨rfl, -⟩
    refine Post.bind (post_updateFirstAvailableId (a := ⟨a.bitset.set _ true, _⟩)
      (by rw [List.length_set]; omega) (by rw [List.length_set]; omega)
      (hfirst.below_insert hlt)) ?_
    rintro a' ⟨hbits, hff⟩
    refine ⟨⟨by rw [hbits, List.length_set]; exact hlen, by rw [hbits]; exact hff⟩, ?_,
      fun hf => (Option.some_ne_none _ hf).elim⟩
    show IdStep capacity _ _ _ (allocatedIds a'.bitset)
    rw [hbits, allocatedIds_set_true hlt]
    refine IdStep.alloc ⟨⟨by omega, hfirst.free⟩, ?_⟩
    rintro i ⟨-, hi⟩
    by_contra hlt'
    exact hi (hfirst.below i (not_le.mp hlt'))
  · rw [if_neg hlt]
    refine ⟨h, IdStep.allocNone ?_, fun _ => rfl⟩
    intro i hi
    exact hfirst.below i (by omega)

/-- What the scan has established: its range is free, and no run starts before it. -/
structure ScanInv (bits : List Bool) (count : ℕ) (r : IdRange) : Prop where
  le : r.start ≤ r.stop
  stop_le : r.stop ≤ bits.length
  short : r.stop - r.start ≤ count
  free : ∀ i, r.start ≤ i → i < r.stop → i ∉ allocatedIds bits
  none_before : ∀ s, s < r.start → ¬FreeRun bits.length (allocatedIds bits) count s

theorem post_scanRun {count : ℕ} (hcap : bits.length < 2 ^ 64) (fuel : ℕ) : ∀ r : IdRange,
    ScanInv bits count r → bits.length - r.stop < fuel →
    Post A (IdAlloc.scanRun bits count fuel r) (fun r' => ScanInv bits count r' ∧
      ¬(r'.stop - r'.start < count ∧ r'.stop < bits.length)) := by
  induction fuel with
  | zero =>
      intro r _ hfuel
      omega
  | succ fuel ih =>
      intro r h hfuel
      rw [IdAlloc.scanRun]
      refine post_ite ?_ (fun hdone => ⟨h, hdone⟩)
      rintro ⟨hshort, hlt⟩
      have hle := h.le
      refine Post.bind (post_getBit hlt) ?_
      intro allocated hal
      refine Post.bind (post_add (fun hov => by omega)) ?_
      rintro _ ⟨rfl, -⟩
      refine post_ite ?_ ?_
      · intro hfree
        have hnot : r.stop ∉ allocatedIds bits := fun hmem => by
          rw [hal.mpr hmem] at hfree
          cases hfree
        refine ih ⟨r.start, r.stop + 1⟩ ⟨by simp only; omega, hlt, by simp only; omega, ?_,
          h.none_before⟩ (by simp only; omega)
        intro i hi hi'
        simp only at hi hi'
        rcases Nat.lt_succ_iff_lt_or_eq.mp hi' with hi' | rfl
        · exact h.free i hi hi'
        · exact hnot
      · intro hset
        have hmem : r.stop ∈ allocatedIds bits := hal.mp (by simpa using hset)
        refine ih ⟨r.stop + 1, r.stop + 1⟩ ⟨le_rfl, hlt, by simp, ?_, ?_⟩ (by simp only; omega)
        · intro i hi hi'
          simp only at hi hi'
          omega
        · -- a run from the range so far would contain the allocated id
          rintro s hs ⟨hfit, hrun⟩
          simp only at hs
          by_cases hsr : s < r.start
          · exact h.none_before s hsr ⟨hfit, hrun⟩
          · exact hrun r.stop (by omega) (by omega) hmem

/-- The scan starts with the first free id. -/
theorem FirstFree.scanInv {first count : ℕ} (h : FirstFree bits first) (hlt : first < bits.length)
    (hcount : 0 < count) : ScanInv bits count ⟨first, first + 1⟩ := by
  refine ⟨Nat.le_succ _, hlt, by simp only; omega, ?_, ?_⟩
  · intro i hi hi'
    simp only at hi hi'
    rw [show i = first from by omega]
    exact h.free
  · rintro s hs ⟨-, hrun⟩
    exact hrun s le_rfl (by omega) (h.below s hs)

/-- A scan that ends with a short range has met no run at all. -/
theorem ScanInv.no_run {count : ℕ} {r : IdRange} (h : ScanInv bits count r)
    (hshort : r.stop - r.start < count) (hend : ¬r.stop < bits.length) :
    ∀ s, ¬FreeRun bits.length (allocatedIds bits) count s := by
  intro s hrun
  by_cases hs : s < r.start
  · exact h.none_before s hs hrun
  · have := hrun.1
    have := h.stop_le
    omega

/-- A scan that ends with a full range has found the lowest run. -/
theorem ScanInv.isLeast {count : ℕ} {r : IdRange} (h : ScanInv bits count r)
    (hfull : ¬r.stop - r.start < count) : r.stop = r.start + count ∧
      IsLeast {s | FreeRun bits.length (allocatedIds bits) count s} r.start := by
  have hle := h.le
  have hshort := h.short
  have hstop : r.stop = r.start + count := by omega
  refine ⟨hstop, ⟨by rw [← hstop]; exact h.stop_le, ?_⟩, ?_⟩
  · intro i hi hi'
    exact h.free i hi (by omega)
  · intro s hrun
    by_contra hs
    exact h.none_before s (not_le.mp hs) hrun

theorem post_idAllocConsecutive {count : ℕ} (h : IdAllocOK capacity a) (hcap : capacity < 2 ^ 64)
    (hcount : 0 < count) :
    Post A (a.perform (.allocConsecutive count)) (IdPost capacity a (.allocConsecutive count)) := by
  have hfirst := h.first
  obtain rfl := h.length
  -- a run of free ids does not start before the first free one
  have hnone : a.bitset.length < a.firstAvailableId + count →
      ∀ s, ¬FreeRun a.bitset.length (allocatedIds a.bitset) count s := by
    rintro hfit s ⟨hs, hrun⟩
    exact hrun s le_rfl (by omega) (hfirst.below s (by omega))
  have hfail : (∀ s, ¬FreeRun a.bitset.length (allocatedIds a.bitset) count s) →
      IdPost a.bitset.length a (.allocConsecutive count) (.range none, a) :=
    fun hno => ⟨h, IdStep.consecutiveNone hno, fun _ => rfl⟩
  show Post A (a.allocConsecutive count >>= _) _
  unfold IdAlloc.allocConsecutive
  rw [if_neg (by omega)]
  by_cases hov : 2 ^ 64 ≤ a.firstAvailableId + count
  · rw [if_pos hov]
    exact hfail (hnone (by omega))
  rw [if_neg hov]
  by_cases hfit : a.bitset.length < a.firstAvailableId + count
  · rw [if_pos hfit]
    exact hfail (hnone hfit)
  rw [if_neg hfit]
  simp only [bind_assoc]
  refine Post.bind (post_add (fun hov => by omega)) ?_
  rintro _ ⟨rfl, -⟩
  refine Post.bind (post_scanRun hcap _ _ (hfirst.scanInv (by omega) hcount)
    (by simp only; omega)) ?_
  rintro r ⟨hscan, hend⟩
  by_cases hshort : r.stop - r.start < count
  · rw [if_pos hshort]
    exact hfail (hscan.no_run hshort (fun hlt => hend ⟨hshort, hlt⟩))
  rw [if_neg hshort]
  obtain ⟨hstop, hleast⟩ := hscan.isLeast hshort
  have hle := hscan.stop_le
  simp only [bind_assoc]
  refine Post.bind (post_setRange (by omega)) ?_
  rintro bits ⟨hlen, hbits⟩
  rw [show r.start + (r.stop - r.start) = r.start + count from by omega] at hbits
  have hstep : IdStep a.bitset.length (allocatedIds a.bitset) (.allocConsecutive count)
      (.range (some r)) (allocatedIds bits) := by
    rw [hbits, show r = ⟨r.start, r.start + count⟩ from by rw [← hstop]]
    exact IdStep.consecutive hleast
  refine Post.bind (post_getBit (by simp only; omega)) ?_
  intro allocated hal
  simp only at hal
  by_cases hset : allocated = true
  · -- the run took the first free id: everything below its end is allocated
    rw [if_pos hset, bind_assoc]
    have hmem := hal.mp hset
    rw [hbits] at hmem
    have hrun := (hmem.resolve_left hfirst.free).1
    refine Post.bind (post_updateFirstAvailableId (by simp only; omega) (by simp only; omega) ?_) ?_
    · intro i hi
      show i ∈ allocatedIds bits
      rw [hbits]
      by_cases hi' : i < r.start
      · exact Or.inl (hfirst.below i (by omega))
      · exact Or.inr ⟨by omega, by omega⟩
    · rintro a' ⟨hbits', hff⟩
      simp only at hbits' hff
      refine ⟨⟨by rw [hbits', hlen], by rw [hbits']; exact hff⟩, ?_,
        fun hf => (Option.some_ne_none _ hf).elim⟩
      show IdStep _ _ _ _ (allocatedIds a'.bitset)
      rw [hbits']
      exact hstep
  · rw [if_neg hset]
    refine ⟨⟨hlen, hfirst.grow hlen ?_ (fun hmem => hset (hal.mpr hmem))⟩, hstep,
      fun hf => (Option.some_ne_none _ hf).elim⟩
    rw [hbits]
    exact Set.subset_union_left

theorem post_idAllocSpecific {id : ℕ} (h : IdAllocOK capacity a) (hcap : capacity < 2 ^ 64)
    (hid : id < capacity) :
    Post A (a.perform (.allocSpecific id)) (IdPost capacity a (.allocSpecific id)) := by
  have hfirst := h.first
  obtain rfl := h.length
  show Post A (a.allocSpecific id >>= _) _
  unfold IdAlloc.allocSpecific IdAlloc.isAllocated
  simp only [bind_assoc]
  refine Post.bind (post_getBit hid) ?_
  intro allocated hal
  by_cases hset : allocated = true
  · rw [if_pos hset]
    exact ⟨h, IdStep.specificNone (hal.mp hset), fun _ => rfl⟩
  rw [if_neg hset]
  have hfree : id ∉ allocatedIds a.bitset := fun hmem => hset (hal.mpr hmem)
  have hstep : IdStep a.bitset.length (allocatedIds a.bitset) (.allocSpecific id)
      (.id (some id)) (allocatedIds (a.bitset.set id true)) := by
    rw [allocatedIds_set_true hid]
    exact IdStep.specific hfree
  simp only [bind_assoc]
  refine Post.bind (post_setBit hid true) ?_
  rintro _ rfl
  by_cases hfst : id = a.firstAvailableId
  · rw [if_pos hfst, bind_assoc]
    refine Post.bind (post_add (fun hov => by omega)) ?_
    rintro _ ⟨rfl, -⟩
    simp only [bind_assoc]
    refine Post.bind (post_updateFirstAvailableId (by simp only [List.length_set]; omega)
      (by simp only [List.length_set]; omega)
      (by simp only; rw [hfst]; exact hfirst.below_insert (by omega))) ?_
    rintro a' ⟨hbits, hff⟩
    simp only at hbits hff
    refine ⟨⟨by rw [hbits, List.length_set], by rw [hbits]; exact hff⟩, ?_,
      fun hf => (Option.some_ne_none _ hf).elim⟩
    show IdStep _ _ _ _ (allocatedIds a'.bitset)
    rw [hbits]
    exact hstep
  · rw [if_neg hfst]
    refine ⟨⟨List.length_set, hfirst.grow List.length_set ?_ ?_⟩, hstep,
      fun hf => (Option.some_ne_none _ hf).elim⟩
    · rw [allocatedIds_set_true hid]
      exact Set.subset_insert _ _
    · show a.firstAvailableId ∉ allocatedIds (a.bitset.set id true)
      rw [allocatedIds_set_true hid]
      rintro (heq | hmem)
      · exact hfst heq.symm
      · exact hfirst.free hmem

theorem post_idFree {id : ℕ} (h : IdAllocOK capacity a) (hid : id ∈ allocatedIds a.bitset) :
    Post A (a.perform (.free id)) (IdPost capacity a (.free id)) := by
  have hlt := lt_length_of_mem hid
  show Post A (a.free id >>= _) _
  unfold IdAlloc.free IdAlloc.isAllocated
  simp only [bind_assoc]
  refine Post.bind (post_getBit hlt) ?_
  intro allocated hal
  refine Post.bind (post_check (fun hn => absurd (hal.mpr hid) hn)) ?_
  intro _ _
  refine Post.bind (post_setBit hlt false) ?_
  rintro _ rfl
  have hff := h.first.release List.length_set allocatedIds_set_false (Set.mem_singleton id)
    (fun i hi => (Set.mem_singleton_iff.mp hi).ge)
  refine ⟨⟨by simp only [List.length_set]; exact h.length, hff⟩, ?_, False.elim⟩
  show IdStep _ _ _ _ (allocatedIds (a.bitset.set id false))
  rw [allocatedIds_set_false]
  exact IdStep.free

theorem post_idFreeConsecutive {r : IdRange} (h : IdAllocOK capacity a)
    (hr : ∀ i, r.start ≤ i → i < r.stop → i ∈ allocatedIds a.bitset) :
    Post A (a.perform (.freeConsecutive r)) (IdPost capacity a (.freeConsecutive r)) := by
  show Post A (a.freeConsecutive r >>= _) _
  unfold IdAlloc.freeConsecutive
  by_cases hempty : r.stop ≤ r.start
  · rw [if_pos hempty]
    refine ⟨h, ?_, False.elim⟩
    have hstep := @IdStep.freeConsecutive capacity (allocatedIds a.bitset) r
    rwa [Set.Ico_eq_empty (by omega), Set.sdiff_empty] at hstep
  rw [if_neg hempty, bind_assoc]
  refine Post.bind (post_clearRange (fun i hi hi' => hr i hi (by omega))) ?_
  rintro bits ⟨hlen, hbits⟩
  rw [show r.start + (r.stop - r.start) = r.stop from by omega] at hbits
  have hff := h.first.release hlen hbits ⟨le_rfl, by omega⟩ (fun i hi => hi.1)
  refine ⟨⟨by simp only [hlen]; exact h.length, hff⟩, ?_, False.elim⟩
  show IdStep _ _ _ _ (allocatedIds bits)
  rw [hbits]
  exact IdStep.freeConsecutive

/-- One permitted operation: it returns, and it is a step of the set of ids. -/
theorem post_idPerform {op : IdOp} (h : IdAllocOK capacity a) (hcap : capacity < 2 ^ 64)
    (hop : op.Permitted capacity (allocatedIds a.bitset)) :
    Post A (a.perform op) (IdPost capacity a op) := by
  cases op with
  | alloc => exact post_idAlloc h hcap
  | allocConsecutive count => exact post_idAllocConsecutive h hcap hop
  | allocSpecific id => exact post_idAllocSpecific h hcap hop
  | free id => exact post_idFree h hop
  | freeConsecutive r => exact post_idFreeConsecutive h hop

end

/-! ## Runs -/

theorem idAllocOK_withCapacity (capacity : ℕ) :
    IdAllocOK capacity (IdAlloc.withCapacity capacity) := by
  refine ⟨List.length_replicate, Nat.zero_le _, fun i hi => absurd hi (Nat.not_lt_zero i), ?_⟩
  intro hmem
  have hbit := List.getElem?_eq_some_iff.mp hmem
  obtain ⟨hlt, hbit⟩ := hbit
  simp only [IdAlloc.withCapacity, List.getElem_replicate] at hbit
  exact Bool.false_ne_true hbit

theorem idSystem_ok {capacity : ℕ} (hcap : capacity < 2 ^ 64) {a : IdAlloc}
    (ha : (idSystem capacity).Reachable a) : IdAllocOK capacity a := by
  refine System.invariant ?_ ?_ ha
  · rintro _ rfl
    exact idAllocOK_withCapacity capacity
  · rintro a op a' - h ⟨hop, res, hres⟩
    have hpost : Post (fun _ => False) (a.perform op) _ := post_idPerform h hcap hop
    rw [hres] at hpost
    exact hpost.1

/-- **The id allocator.**  In every state that permitted calls reach, the cache is the
smallest free id (or the capacity), and every permitted call returns, takes or frees
the ids that it is meant to (`IdStep`), and changes nothing when it fails. -/
theorem id_alloc_correct {capacity : ℕ} (hcap : capacity < 2 ^ 64) {a : IdAlloc}
    (ha : (idSystem capacity).Reachable a) :
    IsLeast (insert capacity {i | i < capacity ∧ i ∉ allocatedIds a.bitset}) a.firstAvailableId ∧
    ∀ op : IdOp, op.Permitted capacity (allocatedIds a.bitset) → ∃ res a',
      a.perform op = .ok (res, a') ∧
      IdStep capacity (allocatedIds a.bitset) op res (allocatedIds a'.bitset) ∧
      (res.Failed → a' = a) := by
  have h := idSystem_ok hcap ha
  have hfirst := h.first
  constructor
  · have hle := hfirst.le
    rw [h.length] at hle
    constructor
    · rcases Nat.lt_or_eq_of_le hle with hlt | heq
      · exact Or.inr ⟨hlt, hfirst.free⟩
      · exact Or.inl heq
    · rintro i (rfl | ⟨-, hi⟩)
      · exact hle
      · by_contra hlt
        exact hi (hfirst.below i (not_le.mp hlt))
  · intro op hop
    have hpost : Post (fun _ => False) (a.perform op) _ := post_idPerform h hcap hop
    cases hperform : a.perform op with
    | error f =>
        rw [hperform] at hpost
        exact hpost.elim
    | ok r =>
        rw [hperform] at hpost
        exact ⟨r.1, r.2, rfl, hpost.2.1, hpost.2.2⟩

/-- Three ids of which two are taken: the next `alloc` gives the last one. -/
theorem id_alloc_correct_sample : ∃ res a',
    (⟨[true, true, false], 2⟩ : IdAlloc).perform .alloc = .ok (res, a') ∧
    IdStep 3 (allocatedIds [true, true, false]) .alloc res (allocatedIds a'.bitset) ∧
    (res.Failed → a' = ⟨[true, true, false], 2⟩) := by
  have ha : (idSystem 3).Reachable ⟨[true, true, false], 2⟩ :=
    .step (l := .allocConsecutive 2) (.init rfl) ⟨Nat.succ_pos 1, _, rfl⟩
  exact (id_alloc_correct (by decide) ha).2 .alloc trivial

end Vostd
