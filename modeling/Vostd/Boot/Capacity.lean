/-
# How many entries `into_non_overlapping` needs

The list that `into_non_overlapping` is documented to return has one entry for each run of
addresses of one type.  The code makes one entry for each boundary of a region first, in an
array of the same size, and joins entries of one type afterwards.  Two regions of one type that
overlap or touch have boundaries inside a run, so the array can be full although the list that
is asked for would fit.
-/
import Vostd.Boot.NonOverlapping

namespace Vostd

open Exec

section

variable {rs out out' : List MemoryRegion}

/-- The documented list is cut into the runs of the types. -/
theorem NonOverlapping.tiles (h : NonOverlapping rs out) :
    Tiles regionView (typeAt rs) (lastEnd rs) 0 out := by
  obtain ⟨hi, htiles⟩ := Tiles.of_isChain (v := regionView) (f := typeAt rs) h.contiguous
    (fun r hr => (h.pages r hr).2.2)
    (fun r hr x hx hx' => typeAt_eq_iff.mpr (h.types r hr x hx hx')) h.first
  rw [← h.last, lastEnd_of_tiles htiles]
  exact htiles

/-- There is one such list. -/
theorem NonOverlapping.unique (h : NonOverlapping rs out) (h' : NonOverlapping rs out') :
    out' = out :=
  Tiles.unique h'.tiles h.tiles h'.different h.different

/-- There is such a list, whatever its length is: with an entry for each boundary the code
finds it. -/
theorem exists_nonOverlapping (hpaged : ∀ r ∈ rs, r.Paged) : ∃ out, NonOverlapping rs out := by
  have hstart : MemoryRegionArray.Swept rs 0 (.new : MemoryRegionArray (boundaries rs).card) :=
    MemoryRegionArray.swept_new rs
  have hsweep := MemoryRegionArray.post_sweep hpaged hstart
  obtain ⟨res, -, hres⟩ := (hsweep.allow (B := fun _ => False)
    (fun e he => absurd he.2 (lt_irrefl _))).exists_ok
  by_cases hnil : res.active = []
  · have hmap : MemoryRegionArray.IsMemoryMap rs res := by
      refine ⟨hres.count_le, hres.covers, ?_⟩
      rw [hnil]
      exact .nil
    exact ⟨res.active, hmap.nonOverlapping⟩
  · obtain ⟨s, -, hmap⟩ :=
      (MemoryRegionArray.post_mergeLoop (A := fun _ => False) hres hnil).exists_ok
    exact ⟨_, hmap.nonOverlapping⟩

end

/-- **The capacity of `into_non_overlapping`.**  For regions that can be rounded to pages there
is one list that the documentation describes.  The code panics only when that list has more
than `LEN` entries, exactly if there are at most `LEN` boundaries or the list is too long
anyway. -/
theorem intoNonOverlapping_capacity_iff {LEN : ℕ} (a : MemoryRegionArray LEN)
    (hcount : a.count ≤ LEN) (hvalid : ∀ r ∈ a.active, r.Valid)
    (hrounds : ∀ r ∈ a.active, r.Rounds) :
    ∃ out, NonOverlapping (alignedRegions a.active) out ∧
      (∀ out', NonOverlapping (alignedRegions a.active) out' → out' = out) ∧
      (((∃ e, a.intoNonOverlapping = .error e) → LEN < out.length) ↔
        (boundaries (alignedRegions a.active)).card ≤ LEN ∨ LEN < out.length) := by
  obtain ⟨out, hout⟩ := exists_nonOverlapping
    (fun r hr => paged_of_mem hvalid hrounds hr)
  have hpost := MemoryRegionArray.post_intoNonOverlapping hcount hvalid hrounds
  refine ⟨out, hout, fun out' hout' => hout.unique hout', ?_⟩
  constructor
  · intro hpanic
    by_cases hcard : (boundaries (alignedRegions a.active)).card ≤ LEN
    · exact Or.inl hcard
    · right
      apply hpanic
      cases hres : a.intoNonOverlapping with
      | error e => exact ⟨e, rfl⟩
      | ok res => exact absurd (hpost.of_ok hres).2 hcard
  · rintro (hcard | hlong) ⟨e, herror⟩
    · exact absurd (hpost.of_error herror).2 (not_lt.mpr hcard)
    · exact hlong

theorem intoNonOverlapping_capacity_iff_sample :
    ∃ out, NonOverlapping (alignedRegions sampleRegions.active) out ∧
      ((∃ e, sampleRegions.intoNonOverlapping = .error e) → 8 < out.length) := by
  obtain ⟨out, hout, -, hiff⟩ :=
    intoNonOverlapping_capacity_iff sampleRegions (by decide) (by decide) (by decide)
  exact ⟨out, hout, hiff.mpr (Or.inl (by decide))⟩

/-- Two regions of one type, one inside the other. -/
def nestedRegions : MemoryRegionArray 2 :=
  ⟨#v[⟨0, 12288, .usable⟩, ⟨4096, 4096, .usable⟩], 2⟩

/-- **A single run of addresses, and no room for it**: the three boundaries take three
entries. -/
theorem nestedRegions_panic : nestedRegions.count ≤ 2 ∧ (∀ r ∈ nestedRegions.active, r.Valid) ∧
    (∀ r ∈ nestedRegions.active, r.Rounds) ∧
    NonOverlapping (alignedRegions nestedRegions.active) [⟨0, 12288, .usable⟩] ∧
    ∃ e, nestedRegions.intoNonOverlapping = .error e := by
  have hcount : nestedRegions.count ≤ 2 := by decide
  have hvalid : ∀ r ∈ nestedRegions.active, r.Valid := by decide
  have hrounds : ∀ r ∈ nestedRegions.active, r.Rounds := by decide
  refine ⟨hcount, hvalid, hrounds, ?_, ?_⟩
  · constructor
    case pages => decide
    case sorted => exact List.pairwise_singleton _ _
    case first => decide
    case contiguous => exact .singleton _
    case last => decide
    case types =>
      intro r hr x hx hx'
      obtain rfl := List.mem_singleton.mp hr
      left
      constructor
      · exact ⟨⟨0, 12288, .usable⟩, by decide, ⟨hx, hx'⟩, rfl⟩
      · have hall : ∀ s ∈ alignedRegions nestedRegions.active, MemoryRegionType.usable ≤ s.typ := by
          decide
        exact fun s hs _ => hall s hs
    case different => exact .singleton _
  · have hpost := MemoryRegionArray.post_intoNonOverlapping hcount hvalid hrounds
    cases hres : nestedRegions.intoNonOverlapping with
    | error e => exact ⟨e, rfl⟩
    | ok res => exact absurd (hpost.of_ok hres).2 (by decide)

end Vostd
