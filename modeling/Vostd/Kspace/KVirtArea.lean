/-
# Kernel virtual areas

`KVirtArea` of `mm/kspace/kvirt_area.rs`: a range of the kernel's address space is taken
from an allocator, and frames (`map_frames`) or a range of physical memory
(`map_untracked_frames`) are mapped into it.

Three algorithms have to agree here.  `largest_pages` cuts the range into pages; the cursor
locks the lowest node that spans the range; `map` refuses a page that is larger than a slot
of this node.  They agree unless the range is one page: then the descent has already gone
below the slot that the page belongs in (`Stops.lt_of_one_slot`), and the call panics.  Where pages
of the top level can be mapped, such a page would replace a node that all tables share, and
the call panics as well.  `map_frames` opens its cursor on the rest of the area, which is
empty if the offset is the size of the area.

An item passes through the entry format of the architecture: what the table shows is what
`new_page` accepts and what is read back from its entry.
-/
import Vostd.Arch.X86
import Vostd.PageTable.LargestPages

namespace Vostd

open Exec

variable {cvm : Bool}

/-! ## Items of the kernel table -/

namespace PageProperty

/-- The bit that marks a tracked frame. -/
def avail1 (prop : PageProperty cvm) : Bool := prop.flags.contains PageFlags.AVAIL1

/-- `encode_tracked_prop`: sets the bit. -/
def encodeTracked (prop : PageProperty cvm) : PageProperty cvm :=
  { prop with
    flags :=
      { bits := prop.flags.bits ||| PageFlags.AVAIL1
        declared := by
          rw [BitVec.and_or_distrib_right, prop.flags.declared]
          rfl } }

/-- `decode_tracked_prop`: clears the bit. -/
def decodeTracked (prop : PageProperty cvm) : PageProperty cvm :=
  { prop with
    flags :=
      { bits := prop.flags.bits &&& ~~~PageFlags.AVAIL1
        declared := by
          rw [BitVec.and_assoc, BitVec.and_comm (~~~PageFlags.AVAIL1), ← BitVec.and_assoc,
            prop.flags.declared] } }

end PageProperty

/-- `MappedItem`. -/
inductive MappedItem (cvm : Bool) : Type where
  | tracked (frame : ℕ) (prop : PageProperty cvm)
  | untracked (pa level : ℕ) (prop : PageProperty cvm)

/-- `item_into_raw`: the mark may not be set before.  A frame is mapped at level 1. -/
def MappedItem.intoRaw : MappedItem cvm → Exec (Item (PageProperty cvm))
  | tracked frame prop => do
      check (prop.avail1 = false)
      pure ⟨frame, 1, prop.encodeTracked⟩
  | untracked pa level prop => do
      check (prop.avail1 = false)
      pure ⟨pa, level, prop.decodeTracked⟩

/-- A raw item as its entry shows it: `Child::into_pte` writes it, where `set_prop` may panic,
and whoever reads the table gets the address and the property of the entry. -/
def Item.recorded {P : Type} (E : PageTableEntryTrait P) (item : Item P) : Exec (Item P) := do
  let pte ← (RawChild.frame (BitVec.ofNat 64 item.pa) item.level item.prop).intoPte E
  let prop ← E.prop pte
  pure ⟨(E.paddr pte).toNat, item.level, prop⟩

/-- The configuration of the kernel table, with the bit that its items use. -/
def kernelConfig (cvm : Bool) (highest : ℕ) (h : highest ≤ 4) :
    PageTableConfig (PageProperty cvm) :=
  kernelPtConfig highest h PageProperty.avail1

/-! ## The code -/

/-- `VMALLOC_VADDR_RANGE`. -/
def VMALLOC_VADDR_RANGE : AddrRange := ⟨0xffffc00000000000, 0xffffe00000000000⟩

/-- `result.unwrap()` -/
def Exec.unwrapOk {α ε : Type} : Except ε α → Exec α
  | .ok a => .ok a
  | .error _ => .error .assertion

/-- The `for` loops of the constructors: `cursor.map(item)` for each item. -/
def Cursor.mapEach (E : PageTableEntryTrait (PageProperty cvm))
    (cfg : PageTableConfig (PageProperty cvm)) :
    List (MappedItem cvm) → Mem (PageProperty cvm) → Cursor →
      Exec (Mem (PageProperty cvm) × Cursor)
  | [], m, c => .ok (m, c)
  | item :: items, m, c => do
      let raw ← item.intoRaw
      let raw ← raw.recorded E
      let (_, m, c) ← c.map cfg m raw
      mapEach E cfg items m c

/-- `KVirtArea::map_untracked_frames`; `alloc` is the allocator of virtual ranges. -/
def mapUntrackedFrames (E : PageTableEntryTrait (PageProperty cvm))
    (cfg : PageTableConfig (PageProperty cvm)) (root : ℕ)
    (alloc : ℕ → Option AddrRange) (areaSize mapOffset : ℕ) (paRange : AddrRange)
    (prop : PageProperty cvm) (m : Mem (PageProperty cvm)) :
    Exec (AddrRange × Mem (PageProperty cvm)) := do
  let range ← unwrap (alloc areaSize)
  if paRange.start < paRange.stop then do
    let len ← sub paRange.stop paRange.start
    let start ← add range.start mapOffset
    let stop ← add start len
    let (res, m) ← Cursor.new cfg m root ⟨start, stop⟩
    let (c, _) ← unwrapOk res
    let iter ← largestPages cfg start paRange.start len
    let pages ← iter.collect cfg (len / PAGE_SIZE + 1)
    let (m, _) ← c.mapEach E cfg (pages.map (fun page => .untracked page.1 page.2 prop)) m
    pure (range, m)
  else pure (range, m)

/-- `KVirtArea::map_frames` -/
def mapFrames (E : PageTableEntryTrait (PageProperty cvm))
    (cfg : PageTableConfig (PageProperty cvm)) (root : ℕ)
    (alloc : ℕ → Option AddrRange) (areaSize mapOffset : ℕ) (frames : List ℕ)
    (prop : PageProperty cvm) (m : Mem (PageProperty cvm)) :
    Exec (AddrRange × Mem (PageProperty cvm)) := do
  check (mapOffset % PAGE_SIZE = 0)
  let range ← unwrap (alloc areaSize)
  let start ← add range.start mapOffset
  let (res, m) ← Cursor.new cfg m root ⟨start, range.stop⟩
  let (c, _) ← unwrapOk res
  let (m, _) ← c.mapEach E cfg (frames.map (fun frame => .tracked frame prop)) m
  pure (range, m)

/-! ## The mark of tracked frames -/

section Mark

variable {prop : PageProperty cvm}

theorem PageProperty.avail1_eq (prop : PageProperty cvm) :
    prop.avail1 = prop.flags.bits.getLsbD 6 :=
  Flags.contains_twoPow _ (by decide)

theorem PageProperty.ext_bits {p q : PageProperty cvm} (hf : p.flags.bits = q.flags.bits)
    (hc : p.cache = q.cache) (hp : p.privFlags = q.privFlags) : p = q := by
  obtain ⟨⟨bits, hb⟩, cache, priv⟩ := p
  obtain ⟨⟨bits', hb'⟩, cache', priv'⟩ := q
  simp only at hf hc hp
  subst hf hc hp
  rfl

/-- The bits of a property without the mark. -/
theorem PageProperty.bits_without_mark (h : prop.avail1 = false) :
    prop.flags.bits &&& ~~~PageFlags.AVAIL1 = prop.flags.bits := by
  rw [avail1_eq] at h
  apply BitVec.eq_of_getLsbD_eq
  intro i hi
  rw [BitVec.getLsbD_and, BitVec.getLsbD_not, PageFlags.AVAIL1, BitVec.getLsbD_twoPow]
  by_cases h6 : i = 6
  · subst h6
    rw [h]
    rfl
  · simp [hi, Ne.symm h6]

/-- Without the mark there is nothing to clear. -/
theorem PageProperty.decodeTracked_eq (h : prop.avail1 = false) : prop.decodeTracked = prop :=
  ext_bits (bits_without_mark h) rfl rfl

/-- Setting the mark and clearing it. -/
theorem PageProperty.decodeTracked_encodeTracked (h : prop.avail1 = false) :
    prop.encodeTracked.decodeTracked = prop := by
  have hbits : (prop.flags.bits ||| PageFlags.AVAIL1) &&& ~~~PageFlags.AVAIL1 =
      prop.flags.bits := by
    rw [BitVec.and_or_distrib_right, bits_without_mark h,
      show PageFlags.AVAIL1 &&& ~~~PageFlags.AVAIL1 = BitVec.zero 8 from by decide]
    exact BitVec.or_zero
  exact ext_bits hbits rfl rfl

/-- An item that its entry describes is shown as it is. -/
theorem PageTableEntryTrait.Records.recorded {P : Type} {E : PageTableEntryTrait P} {item : Item P}
    (h : E.Records (BitVec.ofNat 64 item.pa) item.level item.prop []) (hword : item.pa < 2 ^ 64) :
    item.recorded E = .ok item := by
  obtain ⟨e, he, hd⟩ := h
  have hnew : E.newPage (BitVec.ofNat 64 item.pa) item.level item.prop = .ok e := by
    unfold PageTableEntryTrait.setProps at he
    simpa only [List.foldlM_nil, bind_pure] using he
  have hprop : E.prop e = .ok item.prop := hd.prop
  unfold Item.recorded
  simp only [RawChild.intoPte, hnew, hprop, hd.paddr, BitVec.toNat_ofNat, Nat.mod_eq_of_lt hword,
    bind, Except.bind, pure, Except.pure]

/-- `mapEach` as the loop over the raw items, where the entries show them as they are. -/
theorem Cursor.mapEach_eq {E : PageTableEntryTrait (PageProperty cvm)}
    (cfg : PageTableConfig (PageProperty cvm)) {items : List (MappedItem cvm)}
    {raw : List (Item (PageProperty cvm))}
    (h : List.Forall₂ (fun item r => item.intoRaw = .ok r ∧ r.recorded E = .ok r) items raw) :
    ∀ m c, Cursor.mapEach E cfg items m c = Cursor.mapItems cfg raw m c := by
  induction h with
  | nil =>
      intro m c
      rfl
  | cons hitem _ ih =>
      intro m c
      rw [Cursor.mapEach, Cursor.mapItems, hitem.1]
      show (Item.recorded E _ >>= _) = _
      rw [hitem.2]
      show (c.map cfg m _ >>= _) = (c.map cfg m _ >>= _)
      congr 1
      funext r
      exact ih r.2.1 r.2.2

end Mark

/-! ## The level of the cursor -/

/-- When the pages of a range fit the cursor that is opened on it: the range is not one
huge page, and no page of the top level is cut from it. -/
structure Compatible (highest va pa len : ℕ) : Prop where
  notOnePage : ∀ L, 2 ≤ L → L ≤ highest → len = pageSize L → ¬(pageSize L ∣ va ∧ pageSize L ∣ pa)
  noTopPage : highest = 4 → ∀ v, va ≤ v → v + pageSize 4 ≤ va + len → pageSize 4 ∣ v →
    ¬pageSize 4 ∣ pa + (v - va)

section Levels

variable {P : Type} {m : Mem P} {cfg : PageTableConfig P} {root : ℕ} {r : AddrRange} {g : ℕ}

/-- **The descent leaves the slot of the range.**  Where nothing is mapped and the range is
inside one slot of level `L`, the cursor locks a node below. -/
theorem Stops.lt_of_one_slot {L : ℕ} (h : Stops m root r g) (hstart : cfg.Canonical r.start)
    (hnone : translation cfg m root r.start = none) (hg : 1 ≤ g) (hg4 : g ≤ 4) (hL : 2 ≤ L)
    (hslot : r.start / pageSize L = (r.stop - 1) / pageSize L) : g < L := by
  by_contra hLg
  rcases h with h1 | hidx | ⟨q, pa, prop, hq, he⟩
  · omega
  · apply hidx
    rw [pteIndex_eq, pteIndex_eq, div_pageSize_mono (by omega : L ≤ g) hslot]
  · -- a mapped page would translate the start of the range
    rw [translation_of_canonical hstart, pageWalk_eq_walkFrom hg4 hq, walkFrom_leaf hg he rfl]
      at hnone
    cases hnone

variable {highest va pa len : ℕ} {items : List (ℕ × ℕ)}

/-- A page of the tiling with its place. -/
theorem Greedy.place (h : Greedy highest va pa len items) {x : ℕ × ℕ} (hx : x ∈ items) :
    ∃ d, x.1 = pa + d ∧ d + pageSize x.2 ≤ len ∧ 1 ≤ x.2 ∧ x.2 ≤ highest ∧
      pageSize x.2 ∣ va + d ∧ pageSize x.2 ∣ pa + d := by
  obtain ⟨⟨i, hi⟩, rfl⟩ := List.mem_iff_get.mp hx
  obtain ⟨hpa, ⟨h1, h2, hsuits⟩, -⟩ := h.item items i hi
  have hfits := hsuits.fits
  have hpos := pageSize_pos (items.get ⟨i, hi⟩).2
  exact ⟨pagesSize (items.take i), hpa, by omega, h1, h2, hsuits.va_aligned, hsuits.pa_aligned⟩

/-- **The pages fit the cursor.** -/
theorem Compatible.levels (hc : Compatible highest va pa len) (h : Greedy highest va pa len items)
    (h4 : highest ≤ 4) (hg : 1 ≤ g)
    (hspan : va / pageSize (g + 1) = (va + len - 1) / pageSize (g + 1)) :
    ∀ x ∈ items, x.2 ≤ g ∧ x.2 ≠ 4 := by
  intro x hx
  obtain ⟨d, -, hd, h1, h2, hva, hpa⟩ := h.place hx
  have hpos := pageSize_pos x.2
  constructor
  · by_contra hgx
    -- the range is in a slot that is not larger than the page, so it is the page
    have hsize : pageSize (g + 1) ≤ pageSize x.2 := pageSize_le (by omega)
    have hlo := alignDown_le va (pageSize (g + 1))
    have hhi := ((div_eq_iff_mem (pageSize_pos (g + 1))).mp hspan.symm).2
    have hlen : len = pageSize x.2 := by omega
    obtain rfl : d = 0 := by omega
    exact hc.notOnePage x.2 (by omega) h2 hlen ⟨hva, hpa⟩
  · intro hx4
    rw [hx4] at hd hva hpa
    refine hc.noTopPage (by omega) (va + d) (by omega) (by omega) hva ?_
    rw [Nat.add_sub_cancel_left]
    exact hpa

/-- A range that is one huge page is cut into this page. -/
theorem Greedy.one_page {L : ℕ} (h : Greedy highest va pa len items) (hL : 2 ≤ L)
    (hLh : L ≤ highest) (hlen : len = pageSize L) (hva : pageSize L ∣ va) (hpa : pageSize L ∣ pa) :
    ∃ x ∈ items, L ≤ x.2 := by
  cases items with
  | nil =>
      have hzero : len = 0 := h
      have hpos := pageSize_pos L
      omega
  | cons x items =>
      obtain ⟨-, ⟨-, hmax⟩, -⟩ := h
      exact ⟨x, List.mem_cons_self, hmax ⟨by omega, hLh, ⟨hlen.ge, hva, hpa⟩⟩⟩

/-- Where a page of the top level fits, one is cut: smaller pages do not pass the start of
its slot. -/
theorem Greedy.top_page (items : List (ℕ × ℕ)) : ∀ {va pa len v : ℕ}, Greedy 4 va pa len items →
    va ≤ v → v + pageSize 4 ≤ va + len → pageSize 4 ∣ v → pageSize 4 ∣ pa + (v - va) →
    ∃ x ∈ items, x.2 = 4 := by
  induction items with
  | nil =>
      intro va pa len v h hle hend _ _
      have hzero : len = 0 := h
      have hpos := pageSize_pos 4
      omega
  | cons x items ih =>
      rintro va pa len v ⟨-, ⟨⟨h1, h4, hsuits⟩, hmax⟩, hrest⟩ hle hend hv hpa
      by_cases hx : x.2 = 4
      · exact ⟨x, List.mem_cons_self, hx⟩
      · have hne : va ≠ v := by
          rintro rfl
          rw [Nat.sub_self, Nat.add_zero] at hpa
          have := hmax ⟨by omega, le_rfl, ⟨by omega, hv, hpa⟩⟩
          omega
        have hfits := hsuits.fits
        -- both are multiples of the smaller page size
        have hnext : va + pageSize x.2 ≤ v := by
          obtain ⟨a, ha⟩ := hsuits.va_aligned
          obtain ⟨b, hb⟩ := (pageSize_dvd h4).trans hv
          rw [ha, hb] at hle hne ⊢
          have hab : a < b := by
            rcases Nat.lt_or_ge a b with hlt | hge
            · exact hlt
            · exact absurd (le_antisymm hle (Nat.mul_le_mul_left _ hge)) hne
          rw [← Nat.mul_succ]
          exact Nat.mul_le_mul_left _ hab
        obtain ⟨y, hy, hy4⟩ := ih hrest hnext (by omega) hv (by
          rw [show pa + pageSize x.2 + (v - (va + pageSize x.2)) = pa + (v - va) from by omega]
          exact hpa)
        exact ⟨y, List.mem_cons_of_mem _ hy, hy4⟩

/-- **Otherwise a page does not fit.** -/
theorem Greedy.exists_refused (h : Greedy highest va pa len items)
    (hc : ¬Compatible highest va pa len)
    (hguard : ∀ L, 2 ≤ L → len = pageSize L → pageSize L ∣ va → g < L) :
    ∃ x ∈ items, g < x.2 ∨ x.2 = 4 := by
  by_contra hno
  apply hc
  refine ⟨?_, ?_⟩
  · rintro L hL hLh hlen ⟨hva, hpa⟩
    obtain ⟨x, hx, hle⟩ := h.one_page hL hLh hlen hva hpa
    exact hno ⟨x, hx, Or.inl (lt_of_lt_of_le (hguard L hL hlen hva) hle)⟩
  · rintro rfl v hle hend hv hpa
    obtain ⟨x, hx, hx4⟩ := Greedy.top_page items h hle hend hv hpa
    exact hno ⟨x, hx, Or.inr hx4⟩

end Levels

/-! ## The kernel table -/

/-- A kernel page table that can be mapped in. -/
structure KernelTable (m : Mem (PageProperty cvm)) (cfg : PageTableConfig (PageProperty cvm))
    (root : ℕ) : Prop where
  wellFormed : WellFormed m
  isRoot : IsRoot m cfg root
  ready : MapReady m
  top : TopFilled m cfg root

/-- A range that the allocator of virtual ranges gives out. -/
structure Allocated (m : Mem (PageProperty cvm)) (cfg : PageTableConfig (PageProperty cvm))
    (root areaSize : ℕ) (range : AddrRange) : Prop where
  size : range.stop = range.start + areaSize
  aligned : PAGE_SIZE ∣ range.start
  start_le : VMALLOC_VADDR_RANGE.start ≤ range.start
  le_stop : range.stop ≤ VMALLOC_VADDR_RANGE.stop
  unmapped : ∀ a, range.Contains a → translation cfg m root a = none

/-- The documented conditions on the arguments of `map_untracked_frames`. -/
structure UntrackedArgs (areaSize mapOffset : ℕ) (paRange : AddrRange) : Prop where
  size : PAGE_SIZE ∣ areaSize
  offset : PAGE_SIZE ∣ mapOffset
  start : PAGE_SIZE ∣ paRange.start
  stop : PAGE_SIZE ∣ paRange.stop
  fits : mapOffset + (paRange.stop - paRange.start) ≤ areaSize
  word : paRange.stop < 2 ^ 64

/-- The documented conditions on the arguments of `map_frames`. -/
structure FramesArgs (areaSize mapOffset : ℕ) (frames : List ℕ) : Prop where
  size : PAGE_SIZE ∣ areaSize
  offset : PAGE_SIZE ∣ mapOffset
  fits : mapOffset + frames.length * PAGE_SIZE ≤ areaSize
  words : ∀ frame ∈ frames, frame + PAGE_SIZE ≤ 2 ^ 64

/-- The state in which an area is made: a kernel table, a range that the allocator returns,
and a property in which the mark of tracked frames is free. -/
structure AreaReady (cvm : Bool) (highest : ℕ) (h4 : highest ≤ 4) (m : Mem (PageProperty cvm))
    (root : ℕ) (alloc : ℕ → Option AddrRange) (areaSize : ℕ) (range : AddrRange)
    (prop : PageProperty cvm) : Prop where
  highest_pos : 1 ≤ highest
  table : KernelTable m (kernelConfig cvm highest h4) root
  alloc_eq : alloc areaSize = some range
  range_ok : Allocated m (kernelConfig cvm highest h4) root areaSize range
  unmarked : prop.avail1 = false

/-- The entry format accepts the property and keeps it for every page that may be cut from a
physical range: what `new_page_req` of the contract stands for. -/
def KeepsRange (E : PageTableEntryTrait (PageProperty cvm)) (highest : ℕ) (prop : PageProperty cvm)
    (paRange : AddrRange) : Prop :=
  ∀ pa level, paRange.Contains pa → pageSize level ∣ pa → 1 ≤ level → level ≤ highest →
    E.Records (BitVec.ofNat 64 pa) level prop []

/-- The entry format accepts the property with the mark and keeps it for the frames. -/
def KeepsFrames (E : PageTableEntryTrait (PageProperty cvm)) (prop : PageProperty cvm)
    (frames : List ℕ) : Prop :=
  ∀ frame ∈ frames, E.Records (BitVec.ofNat 64 frame) 1 prop.encodeTracked []

/-- What a constructor is for: the bytes from `va` on translate to given addresses with a
given property, and every other address translates as before. -/
def Shows (cfg : PageTableConfig (PageProperty cvm)) (root : ℕ) (m m' : Mem (PageProperty cvm))
    (va len : ℕ) (f : ℕ → ℕ) (prop : PageProperty cvm) : Prop :=
  (∀ k, k < len → (translation cfg m' root (va + k)).map (fun r => (r.1, r.2.decodeTracked)) =
    some (f k, prop)) ∧
  ∀ a, ¬(va ≤ a ∧ a < va + len) → translation cfg m' root a = translation cfg m root a

/-- A new kernel table can be mapped in. -/
theorem kernelTable_new {highest : ℕ} {h4 : highest ≤ 4} {pool : List ℕ} {root : ℕ}
    {m : Mem (PageProperty cvm)} (hpool : pool.Nodup)
    (hm : newKernelPageTable (kernelConfig cvm highest h4) (freshMem pool) = .ok (root, m)) :
    KernelTable m (kernelConfig cvm highest h4) root := by
  obtain ⟨hW, ⟨m₀, hempty, hg⟩, n, hn⟩ :=
    (post_newKernelPageTable (wellFormed_of_no_nodes (fun _ => rfl)) _).of_ok hm
  obtain ⟨hW₀, -, -⟩ := emptyTable_ok hempty
  have hready := emptyTable_mapReady hpool hempty
  exact ⟨hW, ⟨n, hn.node, hn.level, hn.cfg, hn.stray⟩, hready.of_grow hW₀ hg,
    ⟨n, hn.node, hn.level, hn.cfg, fun i hi => hn.filled i hi.1 hi.2⟩⟩

/-- A new kernel table maps nothing. -/
theorem translation_newKernelPageTable {highest : ℕ} {h4 : highest ≤ 4} {pool : List ℕ} {root : ℕ}
    {m : Mem (PageProperty cvm)}
    (hm : newKernelPageTable (kernelConfig cvm highest h4) (freshMem pool) = .ok (root, m))
    (a : ℕ) :
    translation (kernelConfig cvm highest h4) m root a = none := by
  obtain ⟨-, ⟨m₀, hempty, hg⟩, -⟩ :=
    (post_newKernelPageTable (wellFormed_of_no_nodes (fun _ => rfl)) _).of_ok hm
  obtain ⟨hf, hW₀, hroot₀⟩ :=
    (post_emptyTable (wellFormed_of_no_nodes (fun _ => rfl)) _).of_ok hempty
  rw [hg.translation_eq hW₀ hroot₀]
  unfold translation
  split
  · exact walkFrom_empty hf.node
  · rfl

/-! ## Opening the cursor -/

section Open

variable {P : Type} {cfg : PageTableConfig P} {m : Mem P} {root : ℕ} {r : AddrRange}

/-- A valid and aligned range is locked. -/
theorem Cursor.new_of_valid (hvalid : cfg.isValidRange r = true) (hs : PAGE_SIZE ∣ r.start)
    (ht : PAGE_SIZE ∣ r.stop) :
    Cursor.new cfg m root r = (lockRange m root r >>= fun res => .ok (.ok res.1, res.2)) := by
  have hne := (PageTableConfig.managed_of_isValidRange hvalid).1
  unfold Cursor.new
  rw [if_neg (by simp [hvalid, hne]), if_neg]
  rw [Nat.mod_eq_zero_of_dvd hs, Nat.mod_eq_zero_of_dvd ht]
  simp

end Open

section Areas

variable {highest : ℕ} {h4 : highest ≤ 4} {m : Mem (PageProperty cvm)} {root areaSize : ℕ}
  {range r : AddrRange}

/-- The kernel table manages the upper half of the address space. -/
theorem kernelConfig_managed {a : ℕ} (hlo : 2 ^ 64 - 2 ^ 47 ≤ a) (hhi : a < 2 ^ 64) :
    (kernelConfig cvm highest h4).Managed a := by
  have hbase : (kernelConfig cvm highest h4).base = 2 ^ 64 - 2 ^ 48 := if_pos ⟨rfl, le_rfl⟩
  rw [PageTableConfig.managed_iff, hbase]
  show _ + 256 * 549755813888 ≤ a ∧ a < _ + 512 * 549755813888
  omega

/-- The ranges of the area allocator are valid. -/
theorem isValidRange_vmalloc (hne : r.start < r.stop) (hlo : VMALLOC_VADDR_RANGE.start ≤ r.start)
    (hhi : r.stop ≤ VMALLOC_VADDR_RANGE.stop) :
    (kernelConfig cvm highest h4).isValidRange r = true := by
  unfold VMALLOC_VADDR_RANGE at hlo hhi
  simp only at hlo hhi
  have hstart : (kernelConfig cvm highest h4).Managed r.start :=
    kernelConfig_managed (by omega) (by omega)
  have hlast : (kernelConfig cvm highest h4).Managed (r.stop - 1) :=
    kernelConfig_managed (by omega) (by omega)
  unfold PageTableConfig.isValidRange
  simp only [Bool.and_eq_true, decide_eq_true_eq]
  exact ⟨hne, hstart.1, hlast.2⟩

theorem rangeHeadroom_vmalloc (hhi : r.stop ≤ VMALLOC_VADDR_RANGE.stop) :
    RangeHeadroom (kernelConfig cvm highest h4) r := by
  intro g _ hg4 _
  have hsize := pageSize_le hg4
  rw [pageSize_four] at hsize
  unfold VMALLOC_VADDR_RANGE at hhi
  simp only at hhi
  omega

/-- **Opening a cursor on a part of the area.** -/
theorem post_lockRange_vmalloc (hk : KernelTable m (kernelConfig cvm highest h4) root)
    (hne : r.start < r.stop) (hlo : VMALLOC_VADDR_RANGE.start ≤ r.start)
    (hhi : r.stop ≤ VMALLOC_VADDR_RANGE.stop) (hs : PAGE_SIZE ∣ r.start) (ht : PAGE_SIZE ∣ r.stop) :
    Post (fun e => e = .noMemory) (lockRange m root r) (fun res =>
      KernelTable res.2 (kernelConfig cvm highest h4) root ∧
      translation (kernelConfig cvm highest h4) res.2 root =
        translation (kernelConfig cvm highest h4) m root ∧
      Stops res.2 root r res.1.1.guardLevel ∧
      Opened res.2 (kernelConfig cvm highest h4) root r res.1.1 res.1.2) := by
  have hvalid : (kernelConfig cvm highest h4).isValidRange r = true :=
    isValidRange_vmalloc hne hlo hhi
  have hpost := post_new (A := fun e => e = .noMemory) (r := r)
    ⟨rfl, Or.inr hk.ready.pool⟩ (Or.inr (rangeHeadroom_vmalloc hhi)) hk.wellFormed hk.isRoot
  rw [Cursor.new_of_valid hvalid hs ht] at hpost
  cases hlock : lockRange m root r with
  | error e =>
      rw [hlock] at hpost
      exact hpost
  | ok res =>
      rw [hlock] at hpost
      obtain ⟨hg, -, -, hstops, ho⟩ := hpost
      have hW' := hg.wellFormed hk.wellFormed
      refine ⟨⟨hW', ho.cursor.isRoot, hk.ready.of_grow hk.wellFormed hg,
        hk.top.of_keeps rfl (hg.keeps hk.wellFormed)⟩, hg.translation_eq hk.wellFormed hk.isRoot,
        hstops, ho⟩

/-! ## The constructors -/

variable {alloc : ℕ → Option AddrRange} {mapOffset : ℕ} {paRange : AddrRange} {frames : List ℕ}
  {prop : PageProperty cvm} {E : PageTableEntryTrait (PageProperty cvm)}

/-- The call of `map_untracked_frames` for a range that is not empty, as the loop over the
pages of the tiling. -/
theorem mapUntrackedFrames_eq (h : AreaReady cvm highest h4 m root alloc areaSize range prop)
    (ha : UntrackedArgs areaSize mapOffset paRange) (hkeep : KeepsRange E highest prop paRange)
    (hlt : paRange.start < paRange.stop) :
    ∃ items, Greedy highest (range.start + mapOffset) paRange.start (paRange.stop - paRange.start)
        items ∧
      mapUntrackedFrames E (kernelConfig cvm highest h4) root alloc areaSize mapOffset
        paRange prop m =
        (lockRange m root ⟨range.start + mapOffset,
            range.start + mapOffset + (paRange.stop - paRange.start)⟩ >>= fun res =>
          Cursor.mapItems (kernelConfig cvm highest h4) (items.map (pageItem prop))
            res.2 res.1.1 >>=
            fun x => pure (range, x.1)) := by
  have hfit := ha.fits
  have hword := ha.word
  generalize hlen : paRange.stop - paRange.start = len at hfit ⊢
  have hlo := h.range_ok.start_le
  have hhi := h.range_ok.le_stop
  have hsize := h.range_ok.size
  unfold VMALLOC_VADDR_RANGE at hlo hhi
  simp only at hlo hhi
  have hva : PAGE_SIZE ∣ range.start + mapOffset := Nat.dvd_add h.range_ok.aligned ha.offset
  have hdvd : PAGE_SIZE ∣ len := hlen ▸ Nat.dvd_sub ha.stop ha.start
  have hvalid : (kernelConfig cvm highest h4).isValidRange
      ⟨range.start + mapOffset, range.start + mapOffset + len⟩ = true :=
    isValidRange_vmalloc (by simp only; omega) (by unfold VMALLOC_VADDR_RANGE; simp only; omega)
      (by unfold VMALLOC_VADDR_RANGE; simp only; omega)
  obtain ⟨items, hgreedy, hcollect⟩ := collect_eq
    (show 1 ≤ (kernelConfig cvm highest h4).highestTranslationLevel from h.highest_pos)
    (len / 4096) ⟨range.start + mapOffset, paRange.start, len⟩ le_rfl hva ha.start hdvd
    (by simp only; omega) (by simp only; omega)
  refine ⟨items, hgreedy, ?_⟩
  have hraw : List.Forall₂ (fun item r => MappedItem.intoRaw item = .ok r ∧ r.recorded E = .ok r)
      (items.map (fun page => MappedItem.untracked page.1 page.2 prop))
      (items.map (pageItem prop)) := by
    rw [List.forall₂_map_left_iff, List.forall₂_map_right_iff, List.forall₂_same]
    intro page hpage
    obtain ⟨d, hpa, hd, h1, h2, -, hdvd⟩ := hgreedy.place hpage
    have hpos := pageSize_pos page.2
    rw [← hpa] at hdvd
    simp only at hpa hd
    have hrecords := hkeep page.1 page.2 ⟨by omega, by omega⟩ hdvd h1 h2
    refine ⟨?_, PageTableEntryTrait.Records.recorded hrecords (show page.1 < 2 ^ 64 by omega)⟩
    simp only [MappedItem.intoRaw, check, h.unmarked, if_true,
      PageProperty.decodeTracked_eq h.unmarked]
    rfl
  -- the call, step by step
  unfold mapUntrackedFrames
  rw [h.alloc_eq, unwrap]
  show (if paRange.start < paRange.stop then _ else _) = _
  rw [if_pos hlt, sub, if_pos hlt.le, hlen]
  show (add range.start mapOffset >>= _) = _
  rw [add, if_pos (by omega)]
  show (add (range.start + mapOffset) len >>= _) = _
  rw [add, if_pos (by omega)]
  show (Cursor.new _ m root _ >>= _) = _
  rw [Cursor.new_of_valid hvalid hva (Nat.dvd_add hva hdvd), bind_assoc]
  congr 1
  funext res
  show (largestPages _ _ _ _ >>= _) = _
  rw [largestPages_eq hva ha.start hdvd hvalid (by omega)]
  show (LargestPages.collect _ _ _ >>= _) = _
  rw [hcollect (len / PAGE_SIZE + 1) (Nat.lt_succ_self _)]
  show (Cursor.mapEach _ _ _ _ _ >>= _) = _
  rw [Cursor.mapEach_eq _ hraw]

/-- Opening the cursor for the physical range. -/
theorem AreaReady.post_open (h : AreaReady cvm highest h4 m root alloc areaSize range prop)
    {len : ℕ} (hoff : PAGE_SIZE ∣ mapOffset) (hdvd : PAGE_SIZE ∣ len) (hpos : 0 < len)
    (hfit : mapOffset + len ≤ areaSize) :
    Post (fun e => e = .noMemory)
      (lockRange m root ⟨range.start + mapOffset, range.start + mapOffset + len⟩) (fun res =>
        KernelTable res.2 (kernelConfig cvm highest h4) root ∧
        translation (kernelConfig cvm highest h4) res.2 root =
          translation (kernelConfig cvm highest h4) m root ∧
        Stops res.2 root ⟨range.start + mapOffset, range.start + mapOffset + len⟩
          res.1.1.guardLevel ∧
        Opened res.2 (kernelConfig cvm highest h4) root
          ⟨range.start + mapOffset, range.start + mapOffset + len⟩ res.1.1 res.1.2) := by
  have hlo := h.range_ok.start_le
  have hhi := h.range_ok.le_stop
  have hsize := h.range_ok.size
  have hva : PAGE_SIZE ∣ range.start + mapOffset := Nat.dvd_add h.range_ok.aligned hoff
  exact post_lockRange_vmalloc h.table (by simp only; omega) (by simp only; omega)
    (by simp only; omega) hva (Nat.dvd_add hva hdvd)

/-- The end of a part of an area is a word. -/
theorem AreaReady.end_lt (h : AreaReady cvm highest h4 m root alloc areaSize range prop) {len : ℕ}
    (hfit : mapOffset + len ≤ areaSize) : range.start + mapOffset + len < 2 ^ 64 := by
  have hhi := h.range_ok.le_stop
  have hsize := h.range_ok.size
  unfold VMALLOC_VADDR_RANGE at hhi
  simp only at hhi
  omega

/-- **`map_untracked_frames` where the pages fit.** -/
theorem post_mapUntrackedFrames (h : AreaReady cvm highest h4 m root alloc areaSize range prop)
    (ha : UntrackedArgs areaSize mapOffset paRange) (hkeep : KeepsRange E highest prop paRange)
    (hlt : paRange.start < paRange.stop)
    (hcomp : Compatible highest (range.start + mapOffset) paRange.start
      (paRange.stop - paRange.start)) :
    Post (fun e => e = .noMemory)
      (mapUntrackedFrames E (kernelConfig cvm highest h4) root alloc areaSize mapOffset
        paRange prop m)
      (fun res => res.1 = range ∧ KernelTable res.2 (kernelConfig cvm highest h4) root ∧
        Shows (kernelConfig cvm highest h4) root m res.2 (range.start + mapOffset)
          (paRange.stop - paRange.start) (fun k => paRange.start + k) prop) := by
  obtain ⟨items, hgreedy, hrun⟩ := mapUntrackedFrames_eq h ha hkeep hlt
  rw [hrun]
  have hend := h.end_lt ha.fits
  have hword := ha.word
  refine Post.bind (h.post_open ha.offset (Nat.dvd_sub ha.stop ha.start) (by omega) ha.fits) ?_
  generalize hlen : paRange.stop - paRange.start = len at *
  generalize range.start + mapOffset = va at *
  rintro ⟨⟨c, locked⟩, m₁⟩ ⟨htable, hsame, -, ho⟩
  simp only at htable hsame ho ⊢
  have hlevels := hcomp.levels hgreedy h4 (ho.cursor.level_pos.trans ho.cursor.level_le) (by
    have hspan := ho.cursor.span
    rw [ho.barrierVa] at hspan
    exact (hspan (va + len - 1) ⟨by simp only; omega, by simp only; omega⟩).symm)
  have hplace : PlacedAt m₁ (kernelConfig cvm highest h4) root c va len := by
    refine ⟨htable.wellFormed, ho.cursor, ho.va, ?_, ?_⟩
    · rw [ho.barrierVa]
    · rw [ho.barrierVa]
      exact hend
  refine Post.bind (hgreedy.post_mapItems (by omega)
    htable.ready hplace ?_ prop) ?_
  · intro x hx
    obtain ⟨hg, hx4⟩ := hlevels x hx
    exact ⟨hg, hg.trans ho.cursor.guard_le, Or.inr hx4⟩
  · rintro ⟨m₂, c₂⟩ ⟨hready, hstep, hbytes, hother⟩
    simp only at hready hstep hbytes hother
    refine ⟨rfl, ⟨hstep.wellFormed, hstep.cursor.isRoot, hready,
      htable.top.of_keeps rfl hstep.keeps⟩, ?_, ?_⟩
    · intro k hk
      rw [hbytes k hk]
      show some (paRange.start + k, prop.decodeTracked) = _
      rw [PageProperty.decodeTracked_eq h.unmarked]
    · intro a ha
      rw [hother a ha, hsame]

/-- **`map_untracked_frames` where they do not.** -/
theorem mapUntrackedFrames_refused
    (h : AreaReady cvm highest h4 m root alloc areaSize range prop)
    (ha : UntrackedArgs areaSize mapOffset paRange) (hkeep : KeepsRange E highest prop paRange)
    (hlt : paRange.start < paRange.stop)
    (hcomp : ¬Compatible highest (range.start + mapOffset) paRange.start
      (paRange.stop - paRange.start)) :
    Post (fun _ => True)
      (mapUntrackedFrames E (kernelConfig cvm highest h4) root alloc areaSize mapOffset
        paRange prop m)
      (fun _ => False) := by
  obtain ⟨items, hgreedy, hrun⟩ := mapUntrackedFrames_eq h ha hkeep hlt
  rw [hrun]
  have hopen := h.post_open ha.offset (Nat.dvd_sub ha.stop ha.start) (by omega) ha.fits
  have hnone := h.range_ok.unmapped (range.start + mapOffset) ⟨by omega, by
    have := h.range_ok.size
    have := ha.fits
    omega⟩
  refine Post.bind (hopen.allow (fun _ _ => trivial)) ?_
  generalize hlen : paRange.stop - paRange.start = len at *
  generalize range.start + mapOffset = va at *
  rintro ⟨⟨c, locked⟩, m₁⟩ ⟨htable, hsame, hstops, ho⟩
  simp only at htable hsame hstops ho ⊢
  have hcan : (kernelConfig cvm highest h4).Canonical va := by
    have hmem := ho.cursor.managed
    rw [ho.barrierVa] at hmem
    exact (hmem va ⟨le_rfl, by simp only; omega⟩).canonical
  -- a range that is one slot of level `L` was left by the descent
  have hguard : ∀ L, 2 ≤ L → len = pageSize L → pageSize L ∣ va → c.guardLevel < L := by
    rintro L hL hlenL ⟨k, hk⟩
    refine hstops.lt_of_one_slot hcan (by rw [hsame]; exact hnone)
      (ho.cursor.level_pos.trans ho.cursor.level_le) ho.cursor.guard_le hL ?_
    show va / pageSize L = (va + len - 1) / pageSize L
    have hpos := pageSize_pos L
    rw [hk, hlenL, show pageSize L * k + pageSize L - 1 = pageSize L * k + (pageSize L - 1) from by
      omega, Nat.mul_div_cancel_left k hpos, Nat.mul_add_div hpos, Nat.div_eq_of_lt (by omega),
      Nat.add_zero]
  obtain ⟨x, hx, hbad⟩ := hgreedy.exists_refused hcomp hguard
  refine Post.bind (mapItems_refused rfl _ m₁ c
    htable.wellFormed ho.cursor htable.top ?_ ⟨pageItem prop x, List.mem_map_of_mem hx, hbad⟩)
    (fun _ hfalse => hfalse)
  intro it hit
  obtain ⟨y, hy, rfl⟩ := List.mem_map.mp hit
  exact (hgreedy.level_mem items y hy).2.1.trans h4

/-! ### `map_frames` -/

/-- The raw item of a tracked frame. -/
def frameItem (prop : PageProperty cvm) (frame : ℕ) : Item (PageProperty cvm) :=
  ⟨frame, 1, prop.encodeTracked⟩

theorem itemsSize_frames (prop : PageProperty cvm) (frames : List ℕ) :
    itemsSize (frames.map (frameItem prop)) = frames.length * PAGE_SIZE := by
  induction frames with
  | nil => rfl
  | cons frame frames ih =>
      rw [List.map_cons, itemsSize_cons, ih, List.length_cons]
      show pageSize 1 + _ = _
      rw [pageSize_one]
      unfold PAGE_SIZE
      omega

theorem alignedFrom_frames (prop : PageProperty cvm) (frames : List ℕ) : ∀ {va : ℕ},
    PAGE_SIZE ∣ va → AlignedFrom va (frames.map (frameItem prop)) := by
  induction frames with
  | nil =>
      intro va _
      trivial
  | cons frame frames ih =>
      intro va hva
      have hone : pageSize 1 = PAGE_SIZE := pageSize_one
      refine ⟨?_, ?_⟩
      · show pageSize 1 ∣ va
        rw [hone]
        exact hva
      · apply ih
        show PAGE_SIZE ∣ va + pageSize 1
        rw [hone]
        exact Nat.dvd_add hva dvd_rfl

/-- **Frames side by side.** -/
theorem layOut_frames (prop : PageProperty cvm) (frames : List ℕ) : ∀ (T : ByteMap (ℕ × _))
    (va k : ℕ), k < frames.length * PAGE_SIZE →
    T.layOut va (frames.map (frameItem prop)) (va + k) =
      some (frames.getD (k / PAGE_SIZE) 0 + k % PAGE_SIZE, prop.encodeTracked) := by
  unfold PAGE_SIZE
  induction frames with
  | nil =>
      intro T va k hk
      rw [List.length_nil] at hk
      omega
  | cons frame frames ih =>
      intro T va k hk
      rw [List.map_cons]
      have hone : pageSize (frameItem prop frame).level = 4096 := pageSize_one
      by_cases hfirst : k < 4096
      · rw [ByteMap.layOut_head T (frameItem prop frame) _ (by rw [hone]; exact hfirst),
          Nat.div_eq_of_lt hfirst, Nat.mod_eq_of_lt hfirst]
        rfl
      · rw [List.length_cons] at hk
        have hrec := ih (T.override va (va + 4096) (pageBytes va frame prop.encodeTracked))
          (va + 4096) (k - 4096) (by omega)
        rw [show va + 4096 + (k - 4096) = va + k from by omega,
          show (k - 4096) % 4096 = k % 4096 from by omega,
          show (k - 4096) / 4096 = k / 4096 - 1 from by omega] at hrec
        rw [ByteMap.layOut, hone]
        refine hrec.trans ?_
        obtain ⟨j, hj⟩ : ∃ j, k / 4096 = j + 1 := ⟨k / 4096 - 1, by omega⟩
        rw [hj, Nat.add_sub_cancel, List.getD_cons_succ]

/-- **`map_frames` on an area with a rest.** -/
theorem post_mapFrames (h : AreaReady cvm highest h4 m root alloc areaSize range prop)
    (ha : FramesArgs areaSize mapOffset frames) (hkeep : KeepsFrames E prop frames)
    (hlt : mapOffset < areaSize) :
    Post (fun e => e = .noMemory)
      (mapFrames E (kernelConfig cvm highest h4) root alloc areaSize mapOffset frames prop m)
      (fun res => res.1 = range ∧ KernelTable res.2 (kernelConfig cvm highest h4) root ∧
        Shows (kernelConfig cvm highest h4) root m res.2 (range.start + mapOffset)
          (frames.length * PAGE_SIZE) (fun k => frames.getD (k / PAGE_SIZE) 0 + k % PAGE_SIZE)
          prop) := by
  have hsize := h.range_ok.size
  have hrest : range.stop = range.start + mapOffset + (areaSize - mapOffset) := by omega
  have hend := h.end_lt (show mapOffset + (areaSize - mapOffset) ≤ areaSize by omega)
  have hva : PAGE_SIZE ∣ range.start + mapOffset := Nat.dvd_add h.range_ok.aligned ha.offset
  have hdvd : PAGE_SIZE ∣ areaSize - mapOffset := Nat.dvd_sub ha.size ha.offset
  have hlo := h.range_ok.start_le
  have hhi := h.range_ok.le_stop
  have hvalid : (kernelConfig cvm highest h4).isValidRange
      ⟨range.start + mapOffset, range.start + mapOffset + (areaSize - mapOffset)⟩ = true :=
    isValidRange_vmalloc (by simp only; omega) (by simp only; omega) (by simp only; omega)
  have hraw : List.Forall₂ (fun item r => MappedItem.intoRaw item = .ok r ∧ r.recorded E = .ok r)
      (frames.map (fun frame => MappedItem.tracked frame prop)) (frames.map (frameItem prop)) := by
    rw [List.forall₂_map_left_iff, List.forall₂_map_right_iff, List.forall₂_same]
    intro frame hframe
    have hword := ha.words frame hframe
    unfold PAGE_SIZE at hword
    refine ⟨?_, PageTableEntryTrait.Records.recorded (hkeep frame hframe)
      (show frame < 2 ^ 64 by omega)⟩
    simp only [MappedItem.intoRaw, check, h.unmarked, if_true]
    rfl
  unfold mapFrames
  rw [check, if_pos (Nat.mod_eq_zero_of_dvd ha.offset), h.alloc_eq, unwrap]
  show Post _ (add range.start mapOffset >>= _) _
  rw [add, if_pos (by omega), hrest]
  show Post _ (Cursor.new _ m root _ >>= _) _
  rw [Cursor.new_of_valid hvalid hva (Nat.dvd_add hva hdvd), bind_assoc]
  refine Post.bind (h.post_open ha.offset hdvd (by omega) (by omega)) ?_
  rintro ⟨⟨c, locked⟩, m₁⟩ ⟨htable, hsame, -, ho⟩
  simp only at htable hsame ho
  show Post _ (Cursor.mapEach _ _ _ m₁ c >>= _) _
  rw [Cursor.mapEach_eq _ hraw]
  have hlp := ho.cursor.level_pos
  have hll := ho.cursor.level_le
  have hfits := ha.fits
  refine Post.bind (Vostd.post_mapItems _ m₁ c htable.ready htable.wellFormed ho.cursor
    (by rw [ho.barrierVa]; exact hend) ?_ ?_ ?_) ?_
  · intro it hit
    obtain ⟨frame, hframe, rfl⟩ := List.mem_map.mp hit
    have hword := ha.words frame hframe
    refine ⟨le_rfl, h.highest_pos, by show 1 ≤ _; omega, by show 1 ≤ 4; omega,
      Or.inr (by show 1 ≠ 4; omega),
      ?_⟩
    show frame + pageSize 1 ≤ 2 ^ 64
    rw [pageSize_one]
    exact hword
  · rw [ho.va]
    exact alignedFrom_frames prop frames hva
  · rw [ho.va, ho.barrierVa, itemsSize_frames]
    show range.start + mapOffset + _ ≤ range.start + mapOffset + _
    omega
  · rintro ⟨m₂, c₂⟩ ⟨hready, hstep, -, hT⟩
    simp only at hready hstep hT
    rw [ho.va] at hT
    refine ⟨rfl, ⟨hstep.wellFormed, hstep.cursor.isRoot, hready,
      htable.top.of_keeps rfl hstep.keeps⟩, ?_, ?_⟩
    · intro k hk
      rw [hT, layOut_frames prop frames _ _ k hk]
      show some (_, prop.encodeTracked.decodeTracked) = _
      rw [PageProperty.decodeTracked_encodeTracked h.unmarked]
    · intro a ha'
      rw [hT, ByteMap.layOut_of_not_mem _ _ _ (by rw [itemsSize_frames]; exact ha'), hsame]

/-- **`map_frames` on an area without a rest**: the cursor's range is empty. -/
theorem mapFrames_refused (h : AreaReady cvm highest h4 m root alloc areaSize range prop)
    (ha : FramesArgs areaSize mapOffset frames) (hge : areaSize ≤ mapOffset) :
    mapFrames E (kernelConfig cvm highest h4) root alloc areaSize mapOffset frames prop m =
      .error .assertion := by
  have hsize := h.range_ok.size
  have hhi := h.range_ok.le_stop
  have hfits := ha.fits
  unfold VMALLOC_VADDR_RANGE at hhi
  simp only at hhi
  unfold mapFrames
  rw [check, if_pos (Nat.mod_eq_zero_of_dvd ha.offset), h.alloc_eq, unwrap]
  show (add range.start mapOffset >>= _) = _
  rw [add, if_pos (by omega)]
  show (Cursor.new _ m root _ >>= _) = _
  unfold Cursor.new
  rw [if_pos]
  · rfl
  · rw [Bool.or_eq_true, decide_eq_true_eq]
    right
    show range.stop ≤ range.start + mapOffset
    omega

/-- No pages are cut from an empty range. -/
theorem compatible_zero (highest va pa : ℕ) : Compatible highest va pa 0 := by
  refine ⟨?_, ?_⟩
  · intro L _ _ hlen
    have := pageSize_pos L
    omega
  · intro _ v hle hend
    have := pageSize_pos 4
    omega

/-- **Making an area.**  On arguments as documented, with a property that the entry format keeps,
`map_untracked_frames` returns with the physical range mapped exactly when the pages of the range
fit the cursor, and `map_frames` with the frames mapped exactly when the area has a rest after
the offset. -/
theorem kvirt_area_iff (cvm : Bool) (E : PageTableEntryTrait (PageProperty cvm)) (highest : ℕ)
    (h4 : highest ≤ 4) (m : Mem (PageProperty cvm))
    (root : ℕ) (alloc : ℕ → Option AddrRange) (areaSize : ℕ) (range : AddrRange)
    (prop : PageProperty cvm) (h : AreaReady cvm highest h4 m root alloc areaSize range prop)
    (mapOffset : ℕ) :
    (∀ paRange, UntrackedArgs areaSize mapOffset paRange → KeepsRange E highest prop paRange →
      mapUntrackedFrames E (kernelConfig cvm highest h4) root alloc areaSize
        mapOffset paRange prop m
        ≠ .error .noMemory →
      ((∃ m', mapUntrackedFrames E (kernelConfig cvm highest h4) root alloc areaSize
        mapOffset paRange
          prop m = .ok (range, m') ∧
        Shows (kernelConfig cvm highest h4) root m m' (range.start + mapOffset)
          (paRange.stop - paRange.start) (fun k => paRange.start + k) prop) ↔
        Compatible highest (range.start + mapOffset) paRange.start
          (paRange.stop - paRange.start))) ∧
    ∀ frames, FramesArgs areaSize mapOffset frames → KeepsFrames E prop frames →
      mapFrames E (kernelConfig cvm highest h4) root alloc areaSize mapOffset frames prop m
        ≠ .error .noMemory →
      ((∃ m', mapFrames E (kernelConfig cvm highest h4) root alloc areaSize mapOffset
        frames prop m =
          .ok (range, m') ∧
        Shows (kernelConfig cvm highest h4) root m m' (range.start + mapOffset)
          (frames.length * PAGE_SIZE) (fun k => frames.getD (k / PAGE_SIZE) 0 + k % PAGE_SIZE)
          prop) ↔
        mapOffset < areaSize) := by
  constructor
  · intro paRange ha hkeep hmem
    by_cases hlt : paRange.start < paRange.stop
    · constructor
      · rintro ⟨m', hrun, -⟩
        by_contra hcomp
        exact (mapUntrackedFrames_refused h ha hkeep hlt hcomp).of_ok hrun
      · intro hcomp
        have hpost := post_mapUntrackedFrames h ha hkeep hlt hcomp
        cases hrun : mapUntrackedFrames E (kernelConfig cvm highest h4) root alloc
          areaSize mapOffset
            paRange prop m with
        | error e => exact absurd (hpost.of_error hrun ▸ hrun) hmem
        | ok res =>
            obtain ⟨hres, -, hshows⟩ := hpost.of_ok hrun
            exact ⟨res.2, by rw [← hres], hshows⟩
    · -- nothing is mapped, and no cursor is opened
      have hlen : paRange.stop - paRange.start = 0 := by omega
      have hrun : mapUntrackedFrames E (kernelConfig cvm highest h4) root alloc areaSize mapOffset
          paRange prop m = .ok (range, m) := by
        unfold mapUntrackedFrames
        rw [h.alloc_eq, unwrap]
        show (if paRange.start < paRange.stop then _ else _) = _
        rw [if_neg hlt]
        rfl
      rw [hlen]
      refine ⟨fun _ => compatible_zero _ _ _, fun _ => ⟨m, hrun, ?_, fun _ _ => rfl⟩⟩
      intro k hk
      omega
  · intro frames ha hkeep hmem
    constructor
    · rintro ⟨m', hrun, -⟩
      by_contra hge
      rw [mapFrames_refused h ha (by omega)] at hrun
      cases hrun
    · intro hlt
      have hpost := post_mapFrames h ha hkeep hlt
      cases hrun : mapFrames E (kernelConfig cvm highest h4) root alloc areaSize
        mapOffset frames prop
          m with
      | error e => exact absurd (hpost.of_error hrun ▸ hrun) hmem
      | ok res =>
          obtain ⟨hres, -, hshows⟩ := hpost.of_ok hrun
          exact ⟨res.2, by rw [← hres], hshows⟩

end Areas

/-! ## A first area -/

/-- The addresses of 262 frames. -/
def areaPool : List ℕ := (List.range 262).map (fun i => 4096 * (i + 1))

theorem areaPool_nodup : areaPool.Nodup := by
  apply List.Nodup.map ?_ List.nodup_range
  intro i j hij
  simp only at hij
  omega

theorem areaFlags_among :
    (PageFlags.R ||| PageFlags.W) &&& pageFlagsAll = PageFlags.R ||| PageFlags.W := by decide

theorem areaPrivFlags_among : 0 &&& privFlagsAll false = 0 := by decide

/-- Readable and writable, cached. -/
def areaProp : PageProperty false where
  flags := ⟨PageFlags.R ||| PageFlags.W, areaFlags_among⟩
  cache := .writeback
  privFlags := ⟨0, areaPrivFlags_among⟩

/-- An allocator that gives out the start of its region. -/
def firstAlloc (size : ℕ) : Option AddrRange := some ⟨0xffffc00000000000, 0xffffc00000000000 + size⟩

/-- The entries of x86 keep a property that they support. -/
theorem x86_records_word {p : PageProperty false} (hp : X86.Supported p) {pa : ℕ}
    (hdvd : PAGE_SIZE ∣ pa) (hlt : pa < 2 ^ 52) (level : ℕ) :
    (X86.entry false).Records (BitVec.ofNat 64 pa) level p [] := by
  have hnat : (BitVec.ofNat 64 pa).toNat = pa := by
    rw [BitVec.toNat_ofNat, Nat.mod_eq_of_lt (by omega)]
  have hns : ¬X86.Shared p := fun hs => by cases hs.1
  exact X86.records ⟨by rw [hnat]; exact hdvd, by rw [hnat]; exact hlt⟩
    (fun hc => by cases hc) level
    ⟨hp, hns⟩ (fun _ hq => by cases hq)

theorem areaProp_keepsRange : KeepsRange (X86.entry false) 2 areaProp ⟨0, 0x201000⟩ := by
  intro pa level hpa hdvd hpos _
  have hlt : pa < 0x201000 := hpa.2
  have hpage : PAGE_SIZE ∣ pageSize level := pageSize_dvd hpos
  exact x86_records_word (by decide) (hpage.trans hdvd) (by omega) level

theorem areaProp_keepsFrames : KeepsFrames (X86.entry false) areaProp [0x5000, 0x3000] := by
  intro frame hframe
  have hpage : PAGE_SIZE ∣ frame ∧ frame < 2 ^ 52 := by
    rcases List.mem_pair.mp hframe with rfl | rfl <;> exact ⟨by decide, by decide⟩
  exact x86_records_word (by decide) hpage.1 hpage.2 1

/-- A new kernel table is ready for a first area. -/
theorem areaReady_first {m : Mem (PageProperty false)} {root areaSize : ℕ}
    (hm : newKernelPageTable (kernelConfig false 2 (by decide)) (freshMem areaPool) = .ok (root, m))
    (hsize : areaSize ≤ 0x200000000000) :
    AreaReady false 2 (by decide) m root firstAlloc areaSize
      ⟨0xffffc00000000000, 0xffffc00000000000 + areaSize⟩ areaProp := by
  refine ⟨by decide, kernelTable_new areaPool_nodup hm, rfl, ⟨rfl, ?_, le_rfl, ?_, ?_⟩,
    by decide⟩
  · show PAGE_SIZE ∣ 0xffffc00000000000
    decide
  · show 0xffffc00000000000 + areaSize ≤ 0xffffe00000000000
    omega
  · intro a _
    exact translation_newKernelPageTable hm a

/-- A huge page and a base page, and two frames. -/
def areaRun : Exec Unit := do
  let (root, m) ← newKernelPageTable (kernelConfig false 2 two_le_four) (freshMem areaPool)
  let _ ← mapUntrackedFrames (X86.entry false) (kernelConfig false 2 two_le_four) root
    firstAlloc 0x202000 0
    ⟨0, 0x201000⟩ areaProp m
  let _ ← mapFrames (X86.entry false) (kernelConfig false 2 two_le_four) root firstAlloc 0x202000 0
    [0x5000, 0x3000] areaProp m
  pure ()

theorem kvirt_area_iff_sample : ∃ (m : Mem (PageProperty false)) (root : ℕ) (range : AddrRange),
    (∃ m', mapUntrackedFrames (X86.entry false) (kernelConfig false 2 (by decide)) root
      firstAlloc 0x202000 0
        ⟨0, 0x201000⟩ areaProp m = .ok (range, m') ∧
      Shows (kernelConfig false 2 (by decide)) root m m' (range.start + 0) (0x201000 - 0)
        (fun k => 0 + k) areaProp) ∧
    ∃ m', mapFrames (X86.entry false) (kernelConfig false 2 (by decide)) root firstAlloc 0x202000 0
        [0x5000, 0x3000] areaProp m = .ok (range, m') ∧
      Shows (kernelConfig false 2 (by decide)) root m m' (range.start + 0) (2 * PAGE_SIZE)
        (fun k => [0x5000, 0x3000].getD (k / PAGE_SIZE) 0 + k % PAGE_SIZE) areaProp := by
  have hrun : areaRun = .ok () := by decide +kernel
  obtain ⟨⟨root, m⟩, hm, hrest⟩ := bind_eq_ok.mp hrun
  obtain ⟨res, huntracked, hrest⟩ := bind_eq_ok.mp hrest
  obtain ⟨res', hframes, -⟩ := bind_eq_ok.mp hrest
  obtain ⟨hu, hf⟩ := kvirt_area_iff false (X86.entry false) 2 (by decide) m root firstAlloc 0x202000
    _ areaProp (areaReady_first hm (by decide)) 0
  refine ⟨m, root, ⟨0xffffc00000000000, 0xffffc00000000000 + 0x202000⟩,
    (hu ⟨0, 0x201000⟩ ⟨by decide, by decide, by decide, by decide, by decide, by decide⟩
      areaProp_keepsRange (by rw [huntracked]; exact fun h => by cases h)).mpr ⟨?_, ?_⟩,
    (hf [0x5000, 0x3000] ⟨by decide, by decide, by decide, by decide⟩ areaProp_keepsFrames
      (by rw [hframes]; exact fun h => by cases h)).mpr (by decide)⟩
  · intro L hL hL2 hlen
    obtain rfl : L = 2 := by omega
    rw [pageSize_two] at hlen
    cases hlen
  · intro h
    cases h

/-- **An area of one huge page.**  The cursor locks the node below the slot of the page, and
`map` refuses the page; and an area without frames and without a rest is refused as well. -/
theorem one_page_area_panics : ∃ (m : Mem (PageProperty false)) (root : ℕ) (range : AddrRange),
    AreaReady false 2 (by decide) m root firstAlloc 0x200000 range areaProp ∧
    UntrackedArgs 0x200000 0 ⟨0, 0x200000⟩ ∧
    mapUntrackedFrames (X86.entry false) (kernelConfig false 2 (by decide)) root
      firstAlloc 0x200000 0
      ⟨0, 0x200000⟩ areaProp m = .error .assertion ∧
    FramesArgs 0x200000 0x200000 [] ∧
    mapFrames (X86.entry false) (kernelConfig false 2 (by decide)) root firstAlloc 0x200000 0x200000
      [] areaProp m =
      .error .assertion := by
  obtain ⟨⟨root, m⟩, hm, hp⟩ := exists_of_returns (show (newKernelPageTable
    (kernelConfig false 2 two_le_four) (freshMem areaPool)).returns (fun r =>
      (mapUntrackedFrames (X86.entry false) (kernelConfig false 2 two_le_four) r.1 firstAlloc
        0x200000 0 ⟨0, 0x200000⟩ areaProp r.2 >>= fun _ => .ok ()) = .error .assertion) = true
    by decide +kernel)
  have hready := areaReady_first hm (show 0x200000 ≤ 0x200000000000 by decide)
  have hargs : FramesArgs 0x200000 0x200000 [] := ⟨by decide, by decide, by decide, by decide⟩
  exact ⟨m, root, _, hready, ⟨by decide, by decide, by decide, by decide, by decide, by decide⟩,
    error_of_bind_ok (of_decide_eq_true hp), hargs, mapFrames_refused hready hargs le_rfl⟩

end Vostd
