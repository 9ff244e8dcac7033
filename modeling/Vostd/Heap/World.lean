/-
# The kernel heap in use

The parts from which a kernel heap is built, in the hands of their users: any number of slabs,
lists of slots that the heap implementation keeps, slots that it holds, and allocations that
the rest of the kernel uses and writes to.  The pages come from a frame allocator, which hands
out pages that nobody uses.

A heap slot is a token: whoever has it may push it to a list, return it to a slab, or turn it
into an allocation through the global allocator (`AllocDispatch`).  The latter compares the
slot with what the slot map says for the layout, but not its kind, and it makes the slot anew
from the pointer when the allocation is freed.

The operations do not check everything that they rely on.  `Sized` says what the heap
implementation has to see to.
-/
import Vostd.Heap.Slab
import Vostd.Lib.System

namespace Vostd.Heap

open Exec

/-! ## Large slots -/

namespace HeapSlot

/-- `alloc_large`, with the start of the segment that the frame allocator gives; `none` is the
error. -/
def allocLarge (allowPanic : Bool) (size : ℕ) (segment : Option ℕ) : Exec (Option HeapSlot) :=
  if allowPanic = true ∧ size % PAGE_SIZE ≠ 0 then .error .assertion
  else if size / PAGE_SIZE = 0 then .ok none
  else
    match segment with
    | none => .ok none
    | some start => .ok (some ⟨paddrToVaddr start, .largeSlot size⟩)

/-- `dealloc_large`: the first page and the number of pages of the segment that is dropped. -/
def deallocLarge (debug allowPanic : Bool) (slot : HeapSlot) : Exec (Option (ℕ × ℕ)) :=
  match slot.info with
  | .slabSlot _ => if allowPanic then .error .assertion else .ok none
  | .largeSlot size => do
    debugAssert debug (size % PAGE_SIZE = 0)
    debugAssert debug (slot.paddr % PAGE_SIZE = 0)
    .ok (some (slot.paddr / PAGE_SIZE, (size + PAGE_SIZE - 1) / PAGE_SIZE))

end HeapSlot

/-! ## The global allocator -/

/-- `core::alloc::Layout`. -/
structure AllocLayout where
  size : ℕ
  align : ℕ
  deriving DecidableEq, Repr

namespace AllocDispatch

variable (slotMap : AllocLayout → Option SlotInfo)

/-- `alloc`, with the answer of the heap implementation; `none` is the null pointer. -/
def alloc (layout : AllocLayout) (res : Option HeapSlot) : Exec (Option ℕ) :=
  match slotMap layout with
  | none => .error .assertion
  | some requiredSlot =>
    match res with
    | none => .ok none
    | some slot =>
      if requiredSlot.size ≠ slot.size ∨ slot.size < layout.size ∨ slot.addr % layout.align ≠ 0 then
        .error .assertion
      else .ok (some slot.addr)

/-- `dealloc`, up to the call of the heap implementation with the restored slot. -/
def dealloc (ptr : ℕ) (layout : AllocLayout) : Exec HeapSlot :=
  match slotMap layout with
  | none => .error .assertion
  | some requiredSlot => .ok ⟨ptr, requiredSlot⟩

/-- What an allocation that was made says about its slot. -/
theorem alloc_eq_ok_some {slotMap : AllocLayout → Option SlotInfo} {layout : AllocLayout}
    {slot : HeapSlot} {ptr : ℕ} (h : alloc slotMap layout (some slot) = .ok (some ptr)) :
    ptr = slot.addr ∧ layout.size ≤ slot.size ∧ slot.addr % layout.align = 0 ∧
      ∃ info, slotMap layout = some info ∧ info.size = slot.size := by
  unfold alloc at h
  cases hmap : slotMap layout with
  | none =>
    rw [hmap] at h
    cases h
  | some info =>
    rw [hmap] at h
    by_cases hbad : info.size ≠ slot.size ∨ slot.size < layout.size ∨ slot.addr % layout.align ≠ 0
    · simp only [if_pos hbad] at h
      cases h
    · simp only [if_neg hbad] at h
      push Not at hbad
      obtain ⟨hsize, hle, halign⟩ := hbad
      cases h
      exact ⟨rfl, hle, halign, info, rfl, hsize⟩

end AllocDispatch

/-! ## The world -/

/-- The memory, the slabs by the address of their page, the lists of slots, the pages in use,
the slots that are held, and the allocations. -/
structure World (ι : Type) where
  mem : Memory
  slabs : ℕ → Option Slab
  lists : ι → SlabSlotList
  used : ℕ → Bool
  held : List HeapSlot
  live : List (ℕ × AllocLayout)

inductive Op (ι : Type)
  | newSlab (S : SlotSize) (paddr : ℕ)
  | slabAlloc (p : ℕ)
  | slabDealloc (p : ℕ) (slot : HeapSlot)
  | dropSlab (p : ℕ)
  | push (l : ι) (slot : HeapSlot)
  | pop (l : ι)
  | dropList (l : ι)
  | allocLarge (size start : ℕ)
  | deallocLarge (slot : HeapSlot)
  | forget (slot : HeapSlot)
  | alloc (layout : AllocLayout) (slot : HeapSlot)
  | dealloc (ptr : ℕ) (layout : AllocLayout)
  | write (ptr : ℕ) (layout : AllocLayout) (offset : ℕ) (bytes : List UInt8)

/-- The build and the heap implementation: whether debug assertions are compiled, whether the
feature `allow_panic` is on, the slot sizes of the lists, and the slot map. -/
structure Setting (ι : Type) where
  debug : Bool
  allowPanic : Bool
  slotSize : ι → ℕ
  slotMap : AllocLayout → Option SlotInfo

namespace World

variable {ι : Type}

def init : World ι := ⟨fun _ => 0, fun _ => none, fun _ => .new, fun _ => false, [], []⟩

/-- The pages from `first` on are marked. -/
def setPages (used : ℕ → Bool) (first n : ℕ) (b : Bool) : ℕ → Bool :=
  fun k => if first ≤ k ∧ k < first + n then b else used k

/-- The pages that the frame allocator may hand out. -/
def Unused (w : World ι) (start n : ℕ) : Prop :=
  PAGE_SIZE ∣ start ∧ paddrToVaddr start + n * PAGE_SIZE ≤ 2 ^ 64 ∧
    ∀ k, k < n → w.used (start / PAGE_SIZE + k) = false

variable [DecidableEq ι] (cfg : Setting ι)

/-- A new slab in the page at `paddr`. -/
def newSlab (w : World ι) (S : SlotSize) (paddr : ℕ) : Exec (World ι) := do
  let r ← Slab.new cfg.allowPanic S paddr w.mem
  .ok { w with mem := r.2, slabs := Function.update w.slabs paddr (some r.1),
               used := setPages w.used (paddr / PAGE_SIZE) 1 true }

/-- A slot of the slab is taken. -/
def slabAlloc (w : World ι) (p : ℕ) : Exec (World ι) :=
  match w.slabs p with
  | none => .ok w
  | some slab => do
    let r ← slab.alloc w.mem
    .ok { w with slabs := Function.update w.slabs p (some r.2), held := r.1.toList ++ w.held }

/-- A slot is given to a slab, which may refuse it; it is gone in both cases. -/
def slabDealloc (w : World ι) (p : ℕ) (slot : HeapSlot) : Exec (World ι) :=
  match w.slabs p with
  | none => .ok w
  | some slab => do
    let r ← slab.dealloc cfg.debug cfg.allowPanic w.mem slot
    match r with
    | none => .ok { w with held := w.held.erase slot }
    | some r =>
      .ok { w with mem := r.2, slabs := Function.update w.slabs p (some r.1),
                   held := w.held.erase slot }

def dropSlab (w : World ι) (p : ℕ) : Exec (World ι) :=
  match w.slabs p with
  | none => .ok w
  | some slab => do
    slab.onDrop
    .ok { w with slabs := Function.update w.slabs p none,
                 used := setPages w.used (p / PAGE_SIZE) 1 false }

def push (w : World ι) (l : ι) (slot : HeapSlot) : Exec (World ι) := do
  let r ← (w.lists l).push cfg.allowPanic (cfg.slotSize l) w.mem slot
  .ok { w with mem := r.2, lists := Function.update w.lists l r.1, held := w.held.erase slot }

def pop (w : World ι) (l : ι) : World ι :=
  let r := (w.lists l).pop (cfg.slotSize l) w.mem
  { w with lists := Function.update w.lists l r.2, held := r.1.toList ++ w.held }

/-- A large slot in the segment at `start`. -/
def allocLarge (w : World ι) (size start : ℕ) : Exec (World ι) := do
  let r ← HeapSlot.allocLarge cfg.allowPanic size (some start)
  match r with
  | none => .ok w
  | some slot =>
    .ok { w with used := setPages w.used (start / PAGE_SIZE) (size / PAGE_SIZE) true,
                 held := slot :: w.held }

def deallocLarge (w : World ι) (slot : HeapSlot) : Exec (World ι) := do
  let r ← slot.deallocLarge cfg.debug cfg.allowPanic
  match r with
  | none => .ok { w with held := w.held.erase slot }
  | some r => .ok { w with used := setPages w.used r.1 r.2 false, held := w.held.erase slot }

/-- An allocation for which the heap implementation answers with a slot. -/
def alloc (w : World ι) (layout : AllocLayout) (slot : HeapSlot) : Exec (World ι) := do
  let r ← AllocDispatch.alloc cfg.slotMap layout (some slot)
  match r with
  | none => .ok w
  | some ptr => .ok { w with held := w.held.erase slot, live := (ptr, layout) :: w.live }

/-- An allocation is freed; the heap implementation gets the slot. -/
def dealloc (w : World ι) (ptr : ℕ) (layout : AllocLayout) : Exec (World ι) := do
  let slot ← AllocDispatch.dealloc cfg.slotMap ptr layout
  .ok { w with held := slot :: w.held, live := w.live.erase (ptr, layout) }

/-- One operation. -/
def exec (w : World ι) : Op ι → Exec (World ι)
  | .newSlab S paddr => w.newSlab cfg S paddr
  | .slabAlloc p => w.slabAlloc p
  | .slabDealloc p slot => w.slabDealloc cfg p slot
  | .dropSlab p => w.dropSlab p
  | .push l slot => w.push cfg l slot
  | .pop l => .ok (w.pop cfg l)
  | .dropList l => .ok { w with lists := Function.update w.lists l .new }
  | .allocLarge size start => w.allocLarge cfg size start
  | .deallocLarge slot => w.deallocLarge cfg slot
  | .forget slot => .ok { w with held := w.held.erase slot }
  | .alloc layout slot => w.alloc cfg layout slot
  | .dealloc ptr layout => w.dealloc cfg ptr layout
  | .write ptr _ offset bytes => .ok { w with mem := w.mem.store (ptr + offset) bytes }

/-- What can be asked for: a slot is used by who holds it, an allocation is freed and written to
by who has it and within its layout, and pages that are handed out are unused. -/
def Possible (w : World ι) : Op ι → Prop
  | .newSlab _ paddr => w.Unused paddr 1
  | .slabDealloc _ slot | .push _ slot | .deallocLarge slot | .forget slot | .alloc _ slot =>
    slot ∈ w.held
  | .allocLarge size start => w.Unused start (size / PAGE_SIZE)
  | .dealloc ptr layout => (ptr, layout) ∈ w.live
  | .write ptr layout offset bytes =>
    (ptr, layout) ∈ w.live ∧ offset + bytes.length ≤ layout.size
  | .slabAlloc _ | .dropSlab _ | .pop _ | .dropList _ => True

/-- What the heap implementation has to see to: slots fill their slabs, slots are kept in lists
of their size, large slots are made of whole pages, and the slot for a layout is of the kind
that the slot map says. -/
def Sized : Op ι → Prop
  | .newSlab S _ => S.val ∣ PAGE_SIZE
  | .push l slot => ∀ size, slot.info = .slabSlot size → size = cfg.slotSize l
  | .allocLarge size _ => size % PAGE_SIZE = 0
  | .alloc layout slot => ∀ info, cfg.slotMap layout = some info → info.size = slot.size →
    info = slot.info
  | _ => True

/-- The runs of the heap. -/
def system : System (World ι) (Op ι) where
  init := fun w => w = init
  step := fun w op w' => w.Possible op ∧ w.exec cfg op = .ok w'

/-- The runs in which the heap implementation keeps the sizes and kinds of slots apart. -/
def sizedSystem : System (World ι) (Op ι) := (system cfg).restrict fun _ op => Sized cfg op

end World

end Vostd.Heap
