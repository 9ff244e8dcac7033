/-
# Heap slots and the list of free slots

A heap slot is a piece of kernel memory that will become, or was, a heap allocation.  Free
slots of one size are kept in a singly linked list whose links stand in the slots themselves:
the first word of a free slot is the address of the next one, or zero.

`Lists mem head xs` says that the links in memory lead from `head` through the addresses `xs`.
Pushing and popping change the list as they should, and any write outside of the first words of
the free slots keeps it.
-/
import Vostd.Lib.Memory
import Vostd.Lib.Chains
import Vostd.PageTable.Config

namespace Vostd.Heap

open Exec

/-! ## The model -/

/-- `LINEAR_MAPPING_BASE_VADDR`. -/
def LINEAR_MAPPING_BASE_VADDR : ℕ := 0xffff800000000000

/-- `paddr_to_vaddr`. -/
def paddrToVaddr (pa : ℕ) : ℕ := pa + LINEAR_MAPPING_BASE_VADDR

/-- The type and size of a heap slot. -/
inductive SlotInfo : Type where
  | slabSlot (size : ℕ)
  | largeSlot (size : ℕ)
  deriving DecidableEq, Repr

def SlotInfo.size : SlotInfo → ℕ
  | .slabSlot size => size
  | .largeSlot size => size

structure HeapSlot where
  addr : ℕ
  info : SlotInfo
  deriving DecidableEq, Repr

namespace HeapSlot

def paddr (slot : HeapSlot) : ℕ := slot.addr - LINEAR_MAPPING_BASE_VADDR

def size (slot : HeapSlot) : ℕ := slot.info.size

/-- The bytes of two slots have no address in common. -/
def Apart (s t : HeapSlot) : Prop := Memory.Apart s.addr s.size t.addr t.size

theorem Apart.symm {s t : HeapSlot} (h : s.Apart t) : t.Apart s := Memory.Apart.symm h

end HeapSlot

/-- The list of free slots of a slab, or of slots that a user of the slabs keeps. -/
structure SlabSlotList where
  head : Option ℕ
  deriving DecidableEq, Repr

namespace SlabSlotList

def new : SlabSlotList := ⟨none⟩

/-- Pushes a slot to the front.  A slot that is not from a slab, or of another size, is
refused with the feature `allow_panic`; without it the first is dropped and the size is not
looked at. -/
def push (allowPanic : Bool) (slotSize : ℕ) (list : SlabSlotList) (mem : Memory)
    (slot : HeapSlot) : Exec (SlabSlotList × Memory) :=
  match slot.info with
  | .largeSlot _ => if allowPanic then .error .assertion else .ok (list, mem)
  | .slabSlot size =>
    if allowPanic = true ∧ size ≠ slotSize then .error .assertion
    else .ok (⟨some slot.addr⟩, mem.storeWord slot.addr (list.head.getD 0))

/-- Pops a slot from the front. -/
def pop (slotSize : ℕ) (list : SlabSlotList) (mem : Memory) : Option HeapSlot × SlabSlotList :=
  match list.head with
  | none => (none, list)
  | some a =>
    let next := mem.loadWord a
    (some ⟨a, .slabSlot slotSize⟩, ⟨if next = 0 then none else some next⟩)

end SlabSlotList

/-! ## Lists in memory -/

/-- The link in a free slot. -/
def nextOf (mem : Memory) (a : ℕ) : Option ℕ :=
  if mem.loadWord a = 0 then none else some (mem.loadWord a)

/-- The links lead from the head through the addresses. -/
structure Lists (mem : Memory) (head : Option ℕ) (xs : List ℕ) : Prop where
  head_eq : head = xs.head?
  chain : Chain (nextOf mem) xs
  ne_zero : ∀ x ∈ xs, x ≠ 0
  lt : ∀ x ∈ xs, x < 2 ^ 64

namespace Lists

variable {mem mem' : Memory} {head : Option ℕ} {xs : List ℕ}

theorem nil (mem : Memory) : Lists mem none [] :=
  ⟨rfl, Chain.nil _, (fun _ h => nomatch h), (fun _ h => nomatch h)⟩

/-- A list whose links were not written to. -/
theorem congr (h : Lists mem head xs)
    (hmem : ∀ x ∈ xs, ∀ y, x ≤ y → y < x + 8 → mem' y = mem y) : Lists mem' head xs where
  head_eq := h.head_eq
  chain := by
    refine h.chain.congr fun x hx => ?_
    rw [nextOf, nextOf, Memory.loadWord_congr (hmem x hx)]
  ne_zero := h.ne_zero
  lt := h.lt

/-- A free slot is put in front, and the link to the others is written into it. -/
theorem push (h : Lists mem head xs) {a : ℕ} (ha0 : a ≠ 0) (halt : a < 2 ^ 64)
    (hapart : ∀ x ∈ xs, Memory.Apart x 8 a 8) :
    Lists (mem.storeWord a (head.getD 0)) (some a) (a :: xs) := by
  have hword : (mem.storeWord a (head.getD 0)).loadWord a = head.getD 0 := by
    apply Memory.loadWord_storeWord
    rw [h.head_eq]
    cases xs with
    | nil => exact Nat.two_pow_pos 64
    | cons x xs => exact h.lt x List.mem_cons_self
  have hnext : nextOf (mem.storeWord a (head.getD 0)) a = xs.head? := by
    rw [nextOf, hword, h.head_eq]
    cases xs with
    | nil => rfl
    | cons x xs => exact if_neg (h.ne_zero x List.mem_cons_self)
  have hkeep : Lists (mem.storeWord a (head.getD 0)) head xs := by
    refine h.congr fun x hx y hy hy' => Memory.storeWord_of_not_mem ?_
    have := hapart x hx
    unfold Memory.Apart at this
    omega
  refine ⟨rfl, ?_, List.forall_mem_cons.mpr ⟨ha0, h.ne_zero⟩,
    List.forall_mem_cons.mpr ⟨halt, h.lt⟩⟩
  intro as x bs heq
  cases as with
  | nil =>
    obtain ⟨rfl, rfl⟩ := List.cons.inj heq
    exact hnext
  | cons y as =>
    obtain ⟨rfl, rfl⟩ := List.cons.inj heq
    exact hkeep.chain as x bs rfl

/-- The first slot is taken. -/
theorem pop {a : ℕ} (h : Lists mem head (a :: xs)) (slotSize : ℕ) :
    SlabSlotList.pop slotSize ⟨head⟩ mem = (some ⟨a, .slabSlot slotSize⟩, ⟨xs.head?⟩) ∧
      Lists mem xs.head? xs := by
  have hnext := h.chain [] a xs rfl
  have hhead : head = some a := h.head_eq
  constructor
  · subst hhead
    show (some _, (⟨nextOf mem a⟩ : SlabSlotList)) = _
    rw [hnext]
  · exact ⟨rfl, h.chain.tail, fun x hx => h.ne_zero x (List.mem_cons_of_mem _ hx),
      fun x hx => h.lt x (List.mem_cons_of_mem _ hx)⟩

theorem pop_nil {slotSize : ℕ} (h : Lists mem head []) :
    SlabSlotList.pop slotSize ⟨head⟩ mem = (none, ⟨head⟩) := by
  obtain rfl : head = none := h.head_eq
  rfl

end Lists

end Vostd.Heap
