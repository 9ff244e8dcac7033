/-
# Slabs

A slab is a page that is cut into slots of one size.  Its metadata are the list of its free
slots and the number of the others.  A new slab pushes the slots from the start of the page to
its end, so that the last one comes out first.

The slots are the multiples of the slot size below the page size.  They all lie in the page
only if the slot size divides it; nothing in the code asks for that, and for every other size
the slot that a new slab hands out first reaches beyond the page.
-/
import Vostd.Heap.SlotList

namespace Vostd.Heap

open Exec

/-! ## The model -/

/-- A slot size, as far as it is checked when a slab type is compiled. -/
structure SlotSize where
  val : ℕ
  le_page : val ≤ PAGE_SIZE
  word_le : 8 ≤ val

structure Slab where
  slotSize : SlotSize
  startPaddr : ℕ
  freeList : SlabSlotList
  nrAllocated : ℕ

namespace Slab

/-- The number of slots, as the slab counts them. -/
def capacity (s : Slab) : ℕ := PAGE_SIZE / s.slotSize.val

/-- The number of rounds of `(0..PAGE_SIZE).step_by(SLOT_SIZE)`. -/
def steps (S : SlotSize) : ℕ := (PAGE_SIZE + S.val - 1) / S.val

/-- The slot at an offset that is a multiple of the slot size. -/
def slotAt (S : SlotSize) (paddr i : ℕ) : HeapSlot :=
  ⟨paddrToVaddr paddr + i * S.val, .slabSlot S.val⟩

/-- Makes a slab of the page at `paddr`, which the frame allocator has handed out. -/
def new (allowPanic : Bool) (S : SlotSize) (paddr : ℕ) (mem : Memory) : Exec (Slab × Memory) := do
  let r ← forRange
    (fun i (r : SlabSlotList × Memory) => r.1.push allowPanic S.val r.2 (slotAt S paddr i))
    0 (steps S) (SlabSlotList.new, mem)
  .ok (⟨S, paddr, r.1, 0⟩, r.2)

/-- `SlabMeta::alloc`; `none` is the error. -/
def alloc (s : Slab) (mem : Memory) : Exec (Option HeapSlot × Slab) :=
  let r := s.freeList.pop s.slotSize.val mem
  match r.1 with
  | none => .ok (none, s)
  | some allocated =>
    if s.nrAllocated + 1 < 2 ^ 16 then
      .ok (some allocated, { s with freeList := r.2, nrAllocated := s.nrAllocated + 1 })
    else .error .overflow

/-- The slot's address is in the slab's page. -/
def Owns (s : Slab) (slot : HeapSlot) : Prop :=
  s.startPaddr ≤ slot.paddr ∧ slot.paddr < s.startPaddr + PAGE_SIZE

instance instDecidableOwns (s : Slab) (slot : HeapSlot) : Decidable (s.Owns slot) :=
  inferInstanceAs (Decidable (_ ∧ _))

/-- `Slab::dealloc`; `none` is the error, with which the slot is gone. -/
def dealloc (debug allowPanic : Bool) (s : Slab) (mem : Memory) (slot : HeapSlot) :
    Exec (Option (Slab × Memory)) :=
  if s.Owns slot then do
    debugAssert debug (slot.size = s.slotSize.val)
    let r ← s.freeList.push allowPanic s.slotSize.val mem slot
    let nr ← sub s.nrAllocated 1
    .ok (some ({ s with freeList := r.1, nrAllocated := nr }, r.2))
  else .ok none

/-- `on_drop`: the page is given back if no slot is out. -/
def onDrop (s : Slab) : Exec Unit := check (s.nrAllocated = 0)

end Slab

/-! ## New slabs -/

namespace Slab

variable {S : SlotSize} {paddr : ℕ} {mem : Memory}

theorem paddrToVaddr_ne_zero (paddr : ℕ) : paddrToVaddr paddr ≠ 0 := by
  unfold paddrToVaddr LINEAR_MAPPING_BASE_VADDR
  omega

/-- The first `n` slots of a page, the last one first. -/
def grid (S : SlotSize) (paddr n : ℕ) : List ℕ :=
  ((List.range n).map fun i => (slotAt S paddr i).addr).reverse

theorem grid_succ (S : SlotSize) (paddr n : ℕ) :
    grid S paddr (n + 1) = (slotAt S paddr n).addr :: grid S paddr n := by
  rw [grid, grid, List.range_succ, List.map_append, List.reverse_append]
  rfl

theorem mem_grid {n x : ℕ} :
    x ∈ grid S paddr n ↔ ∃ i, i < n ∧ x = (slotAt S paddr i).addr := by
  rw [grid, List.mem_reverse, List.mem_map]
  constructor
  · rintro ⟨i, hi, rfl⟩
    exact ⟨i, List.mem_range.mp hi, rfl⟩
  · rintro ⟨i, hi, rfl⟩
    exact ⟨i, List.mem_range.mpr hi, rfl⟩

theorem length_grid (S : SlotSize) (paddr n : ℕ) : (grid S paddr n).length = n := by
  rw [grid, List.length_reverse, List.length_map, List.length_range]

/-- A slot of a slab starts where the slot before it ends. -/
theorem apart_slotAt {i j : ℕ} (h : i < j) : (slotAt S paddr i).Apart (slotAt S paddr j) := by
  left
  show paddrToVaddr paddr + i * S.val + S.val ≤ paddrToVaddr paddr + j * S.val
  have := Nat.mul_le_mul_right S.val h
  rw [Nat.succ_mul] at this
  omega

theorem pos (S : SlotSize) : 0 < S.val := Nat.lt_of_lt_of_le (by decide) S.word_le

theorem pred_steps_mul_lt (S : SlotSize) : (steps S - 1) * S.val < PAGE_SIZE := by
  have hpos := pos S
  have hle := Nat.div_mul_le_self (PAGE_SIZE + S.val - 1) S.val
  unfold steps
  rw [Nat.sub_mul, Nat.one_mul]
  have : 0 < PAGE_SIZE := by decide
  omega

theorem steps_pos (S : SlotSize) : 0 < steps S := by
  unfold steps
  apply Nat.div_pos _ (pos S)
  have : 0 < PAGE_SIZE := by decide
  omega

/-- The slots end at the end of the page exactly if their size divides it. -/
theorem steps_mul_le_iff (S : SlotSize) : steps S * S.val ≤ PAGE_SIZE ↔ S.val ∣ PAGE_SIZE := by
  have hpos := pos S
  constructor
  · intro h
    have hlt : PAGE_SIZE < (steps S) * S.val + 1 := by
      have := Nat.lt_div_mul_add (a := PAGE_SIZE + S.val - 1) hpos
      unfold steps
      omega
    exact ⟨steps S, by rw [Nat.mul_comm]; omega⟩
  · rintro ⟨k, hk⟩
    have hsteps : steps S = k := by
      unfold steps
      rw [hk, Nat.add_sub_assoc hpos, Nat.mul_add_div hpos, Nat.div_eq_of_lt (by omega),
        Nat.add_zero]
    rw [hsteps, hk, Nat.mul_comm]

theorem steps_eq_of_dvd (h : S.val ∣ PAGE_SIZE) : steps S = PAGE_SIZE / S.val := by
  obtain ⟨k, hk⟩ := h
  have hpos := pos S
  rw [steps, hk, Nat.mul_div_cancel_left _ hpos, Nat.add_sub_assoc hpos, Nat.mul_add_div hpos,
    Nat.div_eq_of_lt (by omega), Nat.add_zero]

/-- A slot of the right size is pushed in every build. -/
theorem push_slabSlot (allowPanic : Bool) {size : ℕ} (list : SlabSlotList) (mem : Memory)
    (slot : HeapSlot) (h : slot.info = .slabSlot size) :
    list.push allowPanic size mem slot =
      .ok (⟨some slot.addr⟩, mem.storeWord slot.addr (list.head.getD 0)) := by
  unfold SlabSlotList.push
  rw [h]
  exact if_neg fun hne => hne.2 rfl

/-- **A new slab** has all of its slots in its list, the last one in front, and wrote to nothing
but their first words. -/
theorem new_spec (allowPanic : Bool) (S : SlotSize) (paddr : ℕ) (mem : Memory)
    (hbound : paddrToVaddr paddr + PAGE_SIZE ≤ 2 ^ 64) :
    ∃ s mem', Slab.new allowPanic S paddr mem = .ok (s, mem') ∧ s.slotSize = S ∧
      s.startPaddr = paddr ∧ s.nrAllocated = 0 ∧
      Lists mem' s.freeList.head (grid S paddr (steps S)) ∧
      ∀ x, (∀ i, i < steps S → x < (slotAt S paddr i).addr ∨ (slotAt S paddr i).addr + 8 ≤ x) →
        mem' x = mem x := by
  have hloop := post_forRange (A := fun _ => False)
    (f := fun i (r : SlabSlotList × Memory) => r.1.push allowPanic S.val r.2 (slotAt S paddr i))
    (fun n r => n ≤ steps S → Lists r.2 r.1.head (grid S paddr n) ∧
      ∀ x, (∀ i, i < n → x < (slotAt S paddr i).addr ∨ (slotAt S paddr i).addr + 8 ≤ x) →
        r.2 x = mem x)
    (steps S) 0 (SlabSlotList.new, mem) (fun _ => ⟨Lists.nil mem, fun _ _ => rfl⟩) ?_
  · rw [Nat.zero_add] at hloop
    obtain ⟨r, hr, hI⟩ := hloop.exists_ok
    obtain ⟨hlists, hmem⟩ := hI le_rfl
    refine ⟨⟨S, paddr, r.1, 0⟩, r.2, ?_, rfl, rfl, rfl, hlists, hmem⟩
    rw [Slab.new, hr, ok_bind]
  · -- one round pushes the next slot, which is apart from those before it
    intro n r _ hn hI
    rw [push_slabSlot allowPanic r.1 r.2 (slotAt S paddr n) rfl]
    intro hle
    obtain ⟨hlists, hmem⟩ := hI (by omega)
    have hn : n * S.val < PAGE_SIZE :=
      Nat.lt_of_le_of_lt (Nat.mul_le_mul_right _ (by omega)) (pred_steps_mul_lt S)
    have hne := paddrToVaddr_ne_zero paddr
    have haddr : (slotAt S paddr n).addr = paddrToVaddr paddr + n * S.val := rfl
    constructor
    · rw [grid_succ]
      refine hlists.push (by omega) (by omega) ?_
      intro x hx
      obtain ⟨i, hi, rfl⟩ := mem_grid.mp hx
      exact Memory.Apart.mono (apart_slotAt hi) le_rfl (Nat.add_le_add_left S.word_le _) le_rfl
        (Nat.add_le_add_left S.word_le _)
    · intro x hx
      exact (Memory.storeWord_of_not_mem (hx n (Nat.lt_succ_self n))).trans
        (hmem x fun i hi => hx i (by omega))

/-- **The first slot of a new slab lies in its page exactly if the slot size divides the page
size.**  Nothing checks this when the slab type is compiled; nor that the size is a multiple of 8,
without which `push` writes its link as a `usize` to a misaligned address (the memory of the model
takes a word at every address). -/
theorem new_alloc_fits_iff (allowPanic : Bool) (S : SlotSize) (paddr : ℕ) (mem : Memory)
    (hbound : paddrToVaddr paddr + PAGE_SIZE ≤ 2 ^ 64) :
    ∃ s mem' slot s', Slab.new allowPanic S paddr mem = .ok (s, mem') ∧
      s.alloc mem' = .ok (some slot, s') ∧ s.Owns slot ∧
      (slot.addr + slot.size ≤ paddrToVaddr paddr + PAGE_SIZE ↔ S.val ∣ PAGE_SIZE) := by
  obtain ⟨s, mem', hnew, hS, hpaddr, hnr, hlists, -⟩ :=
    new_spec allowPanic S paddr mem hbound
  obtain ⟨n, hn⟩ : ∃ n, steps S = n + 1 := ⟨steps S - 1, by have := steps_pos S; omega⟩
  rw [hn, grid_succ] at hlists
  obtain ⟨hpop, -⟩ := hlists.pop S.val
  refine ⟨s, mem', slotAt S paddr n,
    { s with freeList := ⟨(grid S paddr n).head?⟩, nrAllocated := 1 }, hnew, ?_, ?_, ?_⟩
  · unfold Slab.alloc
    rw [hS]
    rw [show s.freeList.pop S.val mem' = _ from hpop, hnr]
    rfl
  · have hlt := pred_steps_mul_lt S
    rw [hn, Nat.add_sub_cancel] at hlt
    show s.startPaddr ≤ paddrToVaddr paddr + n * S.val - LINEAR_MAPPING_BASE_VADDR ∧
      paddrToVaddr paddr + n * S.val - LINEAR_MAPPING_BASE_VADDR < s.startPaddr + PAGE_SIZE
    rw [hpaddr]
    unfold paddrToVaddr
    omega
  · rw [← steps_mul_le_iff, hn, Nat.succ_mul]
    show paddrToVaddr paddr + n * S.val + S.val ≤ paddrToVaddr paddr + PAGE_SIZE ↔ _
    omega

/-- Slots of 48 bytes: the first one ends after the page. -/
theorem new_alloc_fits_iff_48 :
    ∃ s mem' slot s', Slab.new false ⟨48, by decide, by decide⟩ 0 (fun _ => 0) = .ok (s, mem') ∧
      s.alloc mem' = .ok (some slot, s') ∧ s.Owns slot ∧
      ¬slot.addr + slot.size ≤ paddrToVaddr 0 + PAGE_SIZE := by
  obtain ⟨s, mem', slot, s', hnew, halloc, howns, hiff⟩ :=
    new_alloc_fits_iff false ⟨48, by decide, by decide⟩ 0 (fun _ => 0) (by decide)
  exact ⟨s, mem', slot, s', hnew, halloc, howns, fun h => absurd (hiff.mp h) (by decide)⟩

end Slab

end Vostd.Heap
