/-
# The memory regions of the boot loader

`MemoryRegion` and `MemoryRegionArray` of `boot/memory_region.rs`.  The boot loader and the
kernel report regions of physical memory, in any order and overlapping; before memory is
handed out, `into_non_overlapping` makes of them a list that covers all addresses once.

An array is the storage and the number of entries in use; `active` is the part in use.
`into_non_overlapping` works in place: it packs the aligned regions at the front of the array,
sweeps over their boundaries into a new array, and packs neighbours of one type.
-/
import Vostd.Lib.InPlace
import Vostd.Util.AlignExt

namespace Vostd

open Exec

/-! ## Regions -/

/-- `MemoryRegionType`, from the least to the most usable. -/
inductive MemoryRegionType : Type where
  | badMemory
  | unknown
  | nonVolatileSleep
  | reserved
  | kernel
  | module
  | framebuffer
  | reclaimable
  | usable
  deriving DecidableEq, Repr

namespace MemoryRegionType

/-- The derived order of the type. -/
def rank : MemoryRegionType → ℕ
  | badMemory => 0
  | unknown => 1
  | nonVolatileSleep => 2
  | reserved => 3
  | kernel => 4
  | module => 5
  | framebuffer => 6
  | reclaimable => 7
  | usable => 8

theorem rank_injective : Function.Injective rank := by
  intro a b h
  cases a <;> cases b <;> first | rfl | cases h

instance : LinearOrder MemoryRegionType := LinearOrder.lift' rank rank_injective

end MemoryRegionType

/-- `MemoryRegion` -/
structure MemoryRegion where
  base : ℕ
  len : ℕ
  typ : MemoryRegionType
  deriving DecidableEq, Repr

namespace MemoryRegion

/-- `bad` -/
def bad : MemoryRegion := ⟨0, 0, .badMemory⟩

/-- `end` -/
def stop (r : MemoryRegion) : ℕ := r.base + r.len

/-- The type invariant: the end is a `usize`. -/
def Valid (r : MemoryRegion) : Prop := r.stop < 2 ^ 64

/-- `as_aligned` -/
def asAligned (r : MemoryRegion) : Exec MemoryRegion :=
  match r.typ with
  | .usable => do
      let alignedBase ← alignUp r.base PAGE_SIZE
      let alignedEnd := alignDown r.stop PAGE_SIZE
      .ok ⟨alignedBase, alignedEnd - alignedBase, r.typ⟩
  | _ => do
      let alignedBase := alignDown r.base PAGE_SIZE
      let alignedEnd ← alignUp r.stop PAGE_SIZE
      let len ← Exec.sub alignedEnd alignedBase
      .ok ⟨alignedBase, len, r.typ⟩

end MemoryRegion

/-! ## Arrays of regions -/

/-- `MemoryRegionArray` -/
structure MemoryRegionArray (LEN : ℕ) where
  regions : Vector MemoryRegion LEN
  count : ℕ

/-- `max_region_end` -/
def maxRegionEnd (regions : List MemoryRegion) : Option ℕ := (regions.map MemoryRegion.stop).max?

/-- `most_restrictive_type` -/
def mostRestrictiveType (regions : List MemoryRegion) (curRight : ℕ) : Option MemoryRegionType :=
  ((regions.filter (fun r => decide (r.base ≤ curRight ∧ curRight < r.stop))).map
    MemoryRegion.typ).min?

/-- `next_region_boundary` -/
def nextRegionBoundary (regions : List MemoryRegion) (curRight : ℕ) : Option ℕ :=
  ((regions.filter (fun r => decide (curRight < r.stop))).map
    (fun r => if curRight < r.base then r.base else r.stop)).min?

/-- The boundary is found to the right. -/
theorem lt_of_nextRegionBoundary {regions : List MemoryRegion} {curRight right : ℕ}
    (h : nextRegionBoundary regions curRight = some right) : curRight < right := by
  obtain ⟨r, hr, rfl⟩ := List.mem_map.mp (List.min?_mem h)
  have hstop := of_decide_eq_true (List.mem_filter.mp hr).2
  by_cases hbase : curRight < r.base
  · rw [if_pos hbase]
    exact hbase
  · rw [if_neg hbase]
    exact hstop

namespace MemoryRegionArray

variable {LEN : ℕ}

/-- `deref`: the entries in use. -/
def active (a : MemoryRegionArray LEN) : List MemoryRegion := a.regions.toList.take a.count

/-- `new` -/
def new : MemoryRegionArray LEN := ⟨Vector.replicate LEN .bad, 0⟩

/-- `push`; `none` is `ArrayFullError`. -/
def push (a : MemoryRegionArray LEN) (region : MemoryRegion) : Option (MemoryRegionArray LEN) :=
  if h : a.count < LEN then some ⟨a.regions.set a.count region h, a.count + 1⟩ else none

/-- The first loop: an entry is aligned, and kept unless it is empty. -/
def alignBody (i : ℕ) (s : Vector MemoryRegion LEN × ℕ) : Exec (Vector MemoryRegion LEN × ℕ) := do
  let (regions, count) := s
  let region ← Exec.load regions i
  let region ← region.asAligned
  if region.len ≠ 0 then do
    let regions ← Exec.store regions count region
    .ok (regions, count + 1)
  else .ok (regions, count)

/-- The second loop: the interval up to the next boundary is added to the result. -/
def sweep (regions : List MemoryRegion) (maxAddr curRight : ℕ) (result : MemoryRegionArray LEN) :
    Exec (MemoryRegionArray LEN) :=
  if curRight < maxAddr then
    let typ := (mostRestrictiveType regions curRight).getD .unknown
    match _h : nextRegionBoundary regions curRight with
    | none => .error .assertion
    | some right => do
        let len ← Exec.sub right curRight
        let result ← Exec.unwrap (result.push ⟨curRight, len, typ⟩)
        sweep regions maxAddr right result
  else .ok result
termination_by maxAddr - curRight
decreasing_by
  have := lt_of_nextRegionBoundary _h
  omega

/-- The third loop: an entry is joined with the last one that is kept, or kept. -/
def mergeBody (count : ℕ) (i : ℕ) (s : Vector MemoryRegion LEN × ℕ) :
    Exec (Vector MemoryRegion LEN × ℕ) := do
  let (regions, mergedCount) := s
  let region ← Exec.unwrap (active ⟨regions, count⟩)[i]?
  let lastIndex ← Exec.sub mergedCount 1
  let last ← Exec.load regions lastIndex
  if region.typ = last.typ then do
    let len ← Exec.add last.len region.len
    let regions ← Exec.store regions lastIndex ⟨last.base, len, last.typ⟩
    .ok (regions, mergedCount)
  else do
    let regions ← Exec.store regions mergedCount region
    .ok (regions, mergedCount + 1)

/-- `into_non_overlapping` -/
def intoNonOverlapping (a : MemoryRegionArray LEN) : Exec (MemoryRegionArray LEN) := do
  let (regions, count) ← Exec.forRange alignBody 0 a.count (a.regions, 0)
  let a : MemoryRegionArray LEN := ⟨regions, count⟩
  let maxAddr := (maxRegionEnd a.active).getD 0
  let result ← sweep a.active maxAddr 0 .new
  if result.active = [] then .ok result
  else do
    let (regions, mergedCount) ←
      Exec.forRange (mergeBody result.count) 1 (result.count - 1) (result.regions, 1)
    .ok ⟨regions, mergedCount⟩

end MemoryRegionArray

end Vostd
