/-
# The memory map is the runs of one function

What type an address has is a function of the aligned regions (`IsTypeAt`): the least usable
type of the regions that cover it, or unknown.  `into_non_overlapping` returns the runs of that
function from address 0 to the last end of a region.  There is only one list of runs, so the
order of the regions does not matter, nor does a second call.

The call needs room for one entry for each boundary of a region (`boundaries`), before
neighbours are joined.  It also needs that rounding to pages stays inside the machine word:
`align_up` panics on addresses in the last page of the word.
-/
import Vostd.Boot.MemoryRegion
import Vostd.Lib.Runs

namespace Vostd

open Exec

/-! ## Aligned regions -/

/-- The next multiple of the page size. -/
def roundUp (a : ℕ) : ℕ := alignDown (a + (PAGE_SIZE - 1)) PAGE_SIZE

namespace MemoryRegion

/-- The page-aligned version of a region: a usable one shrinks, the others grow. -/
def aligned (r : MemoryRegion) : MemoryRegion :=
  if r.typ = .usable then ⟨roundUp r.base, alignDown r.stop PAGE_SIZE - roundUp r.base, r.typ⟩
  else ⟨alignDown r.base PAGE_SIZE, roundUp r.stop - alignDown r.base PAGE_SIZE, r.typ⟩

/-- The address that is rounded up is not in the last page of the machine word. -/
def Rounds (r : MemoryRegion) : Prop :=
  (if r.typ = .usable then r.base else r.stop) + (PAGE_SIZE - 1) < 2 ^ 64

instance decidableValid (r : MemoryRegion) : Decidable r.Valid :=
  inferInstanceAs (Decidable (r.stop < 2 ^ 64))

instance decidableRounds (r : MemoryRegion) : Decidable r.Rounds :=
  inferInstanceAs (Decidable ((if r.typ = .usable then r.base else r.stop) +
    (PAGE_SIZE - 1) < 2 ^ 64))

/-- A region that is cut at page boundaries and not empty. -/
structure Paged (r : MemoryRegion) : Prop where
  base_dvd : PAGE_SIZE ∣ r.base
  stop_dvd : PAGE_SIZE ∣ r.stop
  pos : r.base < r.stop
  valid : r.Valid

end MemoryRegion

/-- The aligned regions that are not empty. -/
def alignedRegions (rs : List MemoryRegion) : List MemoryRegion :=
  (rs.map MemoryRegion.aligned).filter (fun r => decide (r.len ≠ 0))

section

variable {r : MemoryRegion} {rs : List MemoryRegion} {A : Fault → Prop}

theorem dvd_roundUp (a : ℕ) : PAGE_SIZE ∣ roundUp a := dvd_alignDown _ _

theorem le_roundUp (a : ℕ) : a ≤ roundUp a := by
  have h := lt_alignDown_add (n := PAGE_SIZE) (a + (PAGE_SIZE - 1)) (by decide)
  unfold roundUp
  unfold PAGE_SIZE at *
  omega

theorem roundUp_le (a : ℕ) : roundUp a ≤ a + (PAGE_SIZE - 1) := alignDown_le _ _

theorem roundUp_of_dvd {a : ℕ} (h : PAGE_SIZE ∣ a) : roundUp a = a := by
  obtain ⟨k, rfl⟩ := h
  unfold roundUp alignDown PAGE_SIZE
  omega

theorem post_alignUp {a : ℕ} (h : a + (PAGE_SIZE - 1) < 2 ^ 64) :
    Post A (alignUp a PAGE_SIZE) (fun b => b = roundUp a) := by
  unfold alignUp checkedAdd
  rw [if_pos h]
  rfl

/-- **`as_aligned`** -/
theorem post_asAligned (h : r.Rounds) : Post A r.asAligned (fun s => s = r.aligned) := by
  unfold MemoryRegion.Rounds at h
  unfold MemoryRegion.asAligned MemoryRegion.aligned
  by_cases htyp : r.typ = .usable
  · rw [if_pos htyp] at h ⊢
    simp only [htyp]
    refine Post.bind (post_alignUp h) ?_
    rintro _ rfl
    rfl
  · rw [if_neg htyp] at h ⊢
    have hle : alignDown r.base PAGE_SIZE ≤ roundUp r.stop :=
      (alignDown_le _ _).trans ((Nat.le_add_right _ _).trans (le_roundUp _))
    split
    · rename_i heq
      exact absurd heq htyp
    · refine Post.bind (post_alignUp h) ?_
      rintro _ rfl
      refine Post.bind (post_sub (fun hlt => absurd hle (not_le.mpr hlt))) ?_
      rintro _ ⟨rfl, -⟩
      rfl

theorem paged_aligned (hvalid : r.Valid) (h : r.Rounds) (hlen : r.aligned.len ≠ 0) :
    r.aligned.Paged := by
  unfold MemoryRegion.Valid at hvalid
  unfold MemoryRegion.Rounds at h
  unfold MemoryRegion.aligned at hlen ⊢
  have hdown := alignDown_le r.stop PAGE_SIZE
  have hup := roundUp_le r.stop
  by_cases htyp : r.typ = .usable
  · rw [if_pos htyp] at h hlen ⊢
    simp only at hlen
    have hstop : MemoryRegion.stop ⟨roundUp r.base, alignDown r.stop PAGE_SIZE - roundUp r.base,
        r.typ⟩ = alignDown r.stop PAGE_SIZE := by
      unfold MemoryRegion.stop
      simp only
      unfold MemoryRegion.stop at hlen
      omega
    refine ⟨dvd_roundUp _, ?_, ?_, ?_⟩
    · rw [hstop]
      exact dvd_alignDown _ _
    · rw [hstop]
      simp only
      omega
    · unfold MemoryRegion.Valid
      rw [hstop]
      omega
  · rw [if_neg htyp] at h hlen ⊢
    simp only at hlen
    have hstop : MemoryRegion.stop ⟨alignDown r.base PAGE_SIZE,
        roundUp r.stop - alignDown r.base PAGE_SIZE, r.typ⟩ = roundUp r.stop := by
      unfold MemoryRegion.stop
      simp only
      unfold MemoryRegion.stop at hlen
      omega
    refine ⟨dvd_alignDown _ _, ?_, ?_, ?_⟩
    · rw [hstop]
      exact dvd_roundUp _
    · rw [hstop]
      simp only
      omega
    · unfold MemoryRegion.Valid
      rw [hstop]
      omega

theorem paged_of_mem (hvalid : ∀ r ∈ rs, r.Valid) (h : ∀ r ∈ rs, r.Rounds)
    (hr : r ∈ alignedRegions rs) : r.Paged := by
  obtain ⟨hmem, hlen⟩ := List.mem_filter.mp hr
  obtain ⟨s, hs, rfl⟩ := List.mem_map.mp hmem
  exact paged_aligned (hvalid s hs) (h s hs) (of_decide_eq_true hlen)

/-- A region that is cut at page boundaries stays as it is. -/
theorem MemoryRegion.Paged.aligned (h : r.Paged) : r.aligned = r := by
  have hbase : alignDown r.base PAGE_SIZE = r.base := alignDown_of_dvd h.base_dvd
  have hstop : alignDown r.stop PAGE_SIZE = r.stop := alignDown_of_dvd h.stop_dvd
  have hlen : r.stop - r.base = r.len := by
    unfold MemoryRegion.stop
    omega
  unfold MemoryRegion.aligned
  by_cases htyp : r.typ = .usable
  · rw [if_pos htyp, roundUp_of_dvd h.base_dvd, hstop, hlen]
  · rw [if_neg htyp, roundUp_of_dvd h.stop_dvd, hbase, hlen]

theorem MemoryRegion.Paged.rounds (h : r.Paged) : r.Rounds := by
  have hpos := h.pos
  have hvalid := h.valid
  unfold MemoryRegion.Valid at hvalid
  obtain ⟨k, hk⟩ := h.stop_dvd
  unfold MemoryRegion.Rounds
  unfold PAGE_SIZE at *
  split <;> omega

theorem alignedRegions_of_paged (h : ∀ r ∈ rs, r.Paged) : alignedRegions rs = rs := by
  have hmap : rs.map MemoryRegion.aligned = rs := by
    conv_rhs => rw [← List.map_id rs]
    apply List.map_congr_left
    intro r hr
    exact (h r hr).aligned
  unfold alignedRegions
  rw [hmap, List.filter_eq_self]
  intro r hr
  have hpos := (h r hr).pos
  unfold MemoryRegion.stop at hpos
  apply decide_eq_true
  omega

theorem alignedRegions_concat (rs : List MemoryRegion) (r : MemoryRegion) :
    alignedRegions (rs ++ [r]) =
      if r.aligned.len ≠ 0 then alignedRegions rs ++ [r.aligned] else alignedRegions rs := by
  unfold alignedRegions
  rw [List.map_append, List.filter_append, List.map_singleton]
  by_cases hlen : r.aligned.len ≠ 0
  · rw [if_pos hlen, List.filter_cons_of_pos (by simpa using hlen), List.filter_nil]
  · rw [if_neg hlen, List.filter_cons_of_neg (by simpa using hlen), List.filter_nil,
      List.append_nil]

/-- The regions count, not their order. -/
theorem mem_alignedRegions_congr {ss : List MemoryRegion} (h : ∀ r, r ∈ ss ↔ r ∈ rs) :
    ∀ r, r ∈ alignedRegions ss ↔ r ∈ alignedRegions rs := by
  intro r
  unfold alignedRegions
  rw [List.mem_filter, List.mem_filter, List.mem_map, List.mem_map]
  simp only [h]

end

/-! ## The first loop -/

namespace MemoryRegionArray

variable {LEN : ℕ} {a : MemoryRegionArray LEN} {A : Fault → Prop}

theorem take_succ_toList {v : Vector MemoryRegion LEN} {i : ℕ} {r : MemoryRegion}
    (h : v[i]? = some r) : v.toList.take (i + 1) = v.toList.take i ++ [r] := by
  rw [List.take_add_one, Vector.getElem?_toList, h]
  rfl

theorem mem_active {i : ℕ} {r : MemoryRegion} (hi : i < a.count) (h : a.regions[i]? = some r) :
    r ∈ a.active := by
  unfold active
  refine List.mem_of_getElem? (i := i) ?_
  rw [List.getElem?_take, if_pos hi, Vector.getElem?_toList, h]

/-- **One round of the first loop.** -/
theorem post_alignBody (hrounds : ∀ r ∈ a.active, r.Rounds) (hcount : a.count ≤ LEN) {i : ℕ}
    (hi : i < a.count) {s : Vector MemoryRegion LEN × ℕ}
    (h : Packed a.regions s.1 i (alignedRegions (a.regions.toList.take i)) ∧
      s.2 = (alignedRegions (a.regions.toList.take i)).length) :
    Post A (alignBody i s) (fun s' =>
      Packed a.regions s'.1 (i + 1) (alignedRegions (a.regions.toList.take (i + 1))) ∧
        s'.2 = (alignedRegions (a.regions.toList.take (i + 1))).length) := by
  obtain ⟨regions, count⟩ := s
  obtain ⟨hpacked, hlen⟩ := h
  simp only at hpacked hlen
  subst hlen
  unfold alignBody
  refine Post.bind (hpacked.post_load (hi.trans_le hcount)) ?_
  intro r hr
  rw [take_succ_toList hr, alignedRegions_concat]
  refine Post.bind (post_asAligned (hrounds r (mem_active hi hr))) ?_
  rintro _ rfl
  refine post_ite ?_ ?_
  · intro hlen
    rw [if_pos hlen]
    refine Post.bind (hpacked.post_push (hi.trans_le hcount)) ?_
    intro v' hv'
    exact ⟨hv', by rw [List.length_append]; rfl⟩
  · intro hlen
    rw [if_neg hlen]
    exact ⟨hpacked.skip, rfl⟩

/-- **The first loop** leaves the aligned regions. -/
theorem post_alignLoop (hrounds : ∀ r ∈ a.active, r.Rounds) (hcount : a.count ≤ LEN) :
    Post A (forRange alignBody 0 a.count (a.regions, 0)) (fun s =>
      (⟨s.1, s.2⟩ : MemoryRegionArray LEN).active = alignedRegions a.active) := by
  have hloop := post_forRange (A := A) (f := alignBody)
    (fun i s => Packed a.regions s.1 i (alignedRegions (a.regions.toList.take i)) ∧
      s.2 = (alignedRegions (a.regions.toList.take i)).length) a.count 0 (a.regions, 0)
    ⟨Packed.take a.regions (Nat.zero_le LEN), rfl⟩
    (fun i s _ hi hs => post_alignBody hrounds hcount (by omega) hs)
  refine hloop.mono ?_
  rintro ⟨v, c⟩ ⟨hpacked, hc⟩
  simp only [Nat.zero_add] at hpacked hc
  subst hc
  exact hpacked.front

end MemoryRegionArray

/-! ## Types and boundaries -/

/-- The type of an address: the least usable type of the regions that cover it, or unknown. -/
def IsTypeAt (rs : List MemoryRegion) (x : ℕ) (t : MemoryRegionType) : Prop :=
  ((∃ r ∈ rs, (r.base ≤ x ∧ x < r.stop) ∧ r.typ = t) ∧
      ∀ r ∈ rs, r.base ≤ x ∧ x < r.stop → t ≤ r.typ) ∨
    ((∀ r ∈ rs, ¬(r.base ≤ x ∧ x < r.stop)) ∧ t = .unknown)

/-- The type that the code finds. -/
def typeAt (rs : List MemoryRegion) (x : ℕ) : MemoryRegionType :=
  (mostRestrictiveType rs x).getD .unknown

/-- The boundaries of regions, without address 0. -/
def boundaries (rs : List MemoryRegion) : Finset ℕ :=
  ((rs.map MemoryRegion.base).toFinset ∪ (rs.map MemoryRegion.stop).toFinset).erase 0

/-- The last end of a region. -/
def lastEnd (rs : List MemoryRegion) : ℕ := (maxRegionEnd rs).getD 0

section

variable {r : MemoryRegion} {rs ss : List MemoryRegion} {x cur right : ℕ} {t : MemoryRegionType}

theorem mem_boundaries {b : ℕ} :
    b ∈ boundaries rs ↔ b ≠ 0 ∧ ∃ r ∈ rs, r.base = b ∨ r.stop = b := by
  unfold boundaries
  rw [Finset.mem_erase, Finset.mem_union, List.mem_toFinset, List.mem_toFinset, List.mem_map,
    List.mem_map, ← exists_or]
  simp only [and_or_left]

theorem mostRestrictiveType_eq_some : mostRestrictiveType rs x = some t ↔
    (∃ r ∈ rs, (r.base ≤ x ∧ x < r.stop) ∧ r.typ = t) ∧
      ∀ r ∈ rs, r.base ≤ x ∧ x < r.stop → t ≤ r.typ := by
  unfold mostRestrictiveType
  rw [List.min?_eq_some_iff, List.forall_mem_map]
  simp only [List.mem_map, List.mem_filter, decide_eq_true_eq, and_assoc, and_imp]

theorem mostRestrictiveType_eq_none : mostRestrictiveType rs x = none ↔
    ∀ r ∈ rs, ¬(r.base ≤ x ∧ x < r.stop) := by
  unfold mostRestrictiveType
  rw [List.min?_eq_none_iff, List.map_eq_nil_iff, List.filter_eq_nil_iff]
  simp only [decide_eq_true_eq]

/-- **The type that the code finds is the type of the address.** -/
theorem typeAt_eq_iff : typeAt rs x = t ↔ IsTypeAt rs x t := by
  unfold typeAt IsTypeAt
  rw [← mostRestrictiveType_eq_some, ← mostRestrictiveType_eq_none]
  cases h : mostRestrictiveType rs x with
  | none => simp [eq_comm]
  | some u => simp

theorem typeAt_congr (h : ∀ r, r ∈ ss ↔ r ∈ rs) : typeAt ss = typeAt rs := by
  funext x
  rw [typeAt_eq_iff]
  have hx : IsTypeAt rs x (typeAt rs x) := typeAt_eq_iff.mp rfl
  unfold IsTypeAt at hx ⊢
  simp only [h]
  exact hx

theorem boundaries_congr (h : ∀ r, r ∈ ss ↔ r ∈ rs) : boundaries ss = boundaries rs := by
  ext b
  rw [mem_boundaries, mem_boundaries]
  simp only [h]

theorem lastEnd_eq_iff {hi : ℕ} : lastEnd rs = hi ↔
    (rs = [] ∧ hi = 0) ∨ ((∃ r ∈ rs, r.stop = hi) ∧ ∀ r ∈ rs, r.stop ≤ hi) := by
  unfold lastEnd
  cases h : maxRegionEnd rs with
  | none =>
      unfold maxRegionEnd at h
      rw [List.max?_eq_none_iff, List.map_eq_nil_iff] at h
      subst h
      simp [eq_comm]
  | some m =>
      unfold maxRegionEnd at h
      rw [List.max?_eq_some_iff, List.forall_mem_map, List.mem_map] at h
      obtain ⟨⟨r, hr, hrm⟩, hmax⟩ := h
      rw [Option.getD_some]
      constructor
      · rintro rfl
        exact Or.inr ⟨⟨r, hr, hrm⟩, hmax⟩
      · rintro (⟨rfl, -⟩ | ⟨⟨s, hs, rfl⟩, hall⟩)
        · cases hr
        · exact (hrm ▸ hall r hr).antisymm (hmax s hs)

theorem lastEnd_congr (h : ∀ r, r ∈ ss ↔ r ∈ rs) : lastEnd ss = lastEnd rs := by
  rw [lastEnd_eq_iff]
  have hx := lastEnd_eq_iff.mp (Eq.refl (lastEnd rs))
  rw [List.eq_nil_iff_forall_not_mem] at hx ⊢
  simp only [h]
  exact hx

theorem stop_le_lastEnd (hr : r ∈ rs) : r.stop ≤ lastEnd rs := by
  rcases lastEnd_eq_iff.mp (rfl : lastEnd rs = lastEnd rs) with ⟨rfl, -⟩ | ⟨-, hall⟩
  · cases hr
  · exact hall r hr

theorem le_lastEnd_of_mem {b : ℕ} (hb : b ∈ boundaries rs) : b ≤ lastEnd rs := by
  obtain ⟨-, r, hr, rfl | rfl⟩ := mem_boundaries.mp hb
  · exact (Nat.le_add_right _ _).trans (stop_le_lastEnd hr)
  · exact stop_le_lastEnd hr

/-- **The next boundary.** -/
theorem nextRegionBoundary_spec (h : nextRegionBoundary rs cur = some right) :
    right ∈ boundaries rs ∧ cur < right ∧ ∀ b ∈ boundaries rs, cur < b → right ≤ b := by
  have hlt := lt_of_nextRegionBoundary h
  unfold nextRegionBoundary at h
  rw [List.min?_eq_some_iff, List.forall_mem_map] at h
  simp only [List.mem_map, List.mem_filter, decide_eq_true_eq, and_imp] at h
  obtain ⟨⟨r, ⟨hr, -⟩, heq⟩, hmin⟩ := h
  refine ⟨mem_boundaries.mpr ⟨by omega, r, hr, ?_⟩, hlt, ?_⟩
  · by_cases hbase : cur < r.base
    · rw [if_pos hbase] at heq
      exact Or.inl heq
    · rw [if_neg hbase] at heq
      exact Or.inr heq
  · intro b hb hcur
    obtain ⟨-, s, hs, hsb⟩ := mem_boundaries.mp hb
    have hstop : s.base ≤ s.stop := Nat.le_add_right _ _
    have hle := hmin s hs (by omega)
    split at hle <;> omega

theorem nextRegionBoundary_ne_none (h : cur < lastEnd rs) : nextRegionBoundary rs cur ≠ none := by
  intro hnone
  unfold nextRegionBoundary at hnone
  rw [List.min?_eq_none_iff, List.map_eq_nil_iff, List.filter_eq_nil_iff] at hnone
  rcases lastEnd_eq_iff.mp (rfl : lastEnd rs = lastEnd rs) with ⟨-, hzero⟩ | ⟨⟨r, hr, heq⟩, -⟩
  · omega
  · have := hnone r hr
    simp only [decide_eq_true_eq] at this
    omega

/-- Between two boundaries the type stays. -/
theorem typeAt_eq_of_lt (hnext : ∀ b ∈ boundaries rs, cur < b → right ≤ b) (hx : cur ≤ x)
    (hx' : x < right) : typeAt rs x = typeAt rs cur := by
  unfold typeAt mostRestrictiveType
  congr 3
  apply List.filter_congr
  intro r hr
  -- neither end of `r` is between the two addresses
  have hbase : cur < r.base → right ≤ r.base := fun h =>
    hnext _ (mem_boundaries.mpr ⟨by omega, r, hr, Or.inl rfl⟩) h
  have hstop : cur < r.stop → right ≤ r.stop := fun h =>
    hnext _ (mem_boundaries.mpr ⟨by omega, r, hr, Or.inr rfl⟩) h
  rw [decide_eq_decide]
  omega

end

/-! ## The sweep -/

/-- A region as a piece of the address space. -/
def regionView : RunView MemoryRegion ℕ MemoryRegionType where
  start := MemoryRegion.base
  stop := MemoryRegion.stop
  val := MemoryRegion.typ
  ext := by
    rintro ⟨base, len, typ⟩ ⟨base', len', typ'⟩ hstart hstop hval
    simp only [MemoryRegion.stop] at hstart hstop hval
    subst hstart hval
    obtain rfl : len = len' := by omega
    rfl

/-- Pieces up to `hi` end there. -/
theorem lastEnd_of_tiles {f : ℕ → MemoryRegionType} {hi : ℕ} {out : List MemoryRegion}
    (h : Tiles regionView f hi 0 out) : lastEnd out = hi := by
  rw [lastEnd_eq_iff]
  by_cases hnil : out = []
  · subst hnil
    exact Or.inl ⟨rfl, h.eq_of_nil.symm⟩
  · have hlast := h
    rw [← List.dropLast_append_getLast hnil] at hlast
    exact Or.inr ⟨⟨_, List.getLast_mem hnil, hlast.of_concat.2.2.1⟩,
      fun r hr => (h.of_mem hr).2.2.1⟩

/-- The list covers the addresses below `hi` with their types, cut at page boundaries. -/
structure RegionsCover (rs : List MemoryRegion) (hi : ℕ) (out : List MemoryRegion) : Prop where
  tiles : Tiles regionView (typeAt rs) hi 0 out
  paged : ∀ r ∈ out, r.Paged

/-- A region is added. -/
theorem RegionsCover.concat {rs out : List MemoryRegion} {hi : ℕ} {r : MemoryRegion}
    (h : RegionsCover rs hi out) (hbase : r.base = hi) (hr : r.Paged)
    (hval : ∀ x, hi ≤ x → x < r.stop → typeAt rs x = r.typ) :
    RegionsCover rs r.stop (out ++ [r]) := by
  subst hbase
  constructor
  · exact Tiles.concat (v := regionView) h.tiles hr.pos hval
  · intro s hs
    rcases List.mem_append.mp hs with hs | hs
    · exact h.paged s hs
    · rw [List.mem_singleton.mp hs]
      exact hr

/-- The last region is taken away. -/
theorem RegionsCover.of_concat {rs out : List MemoryRegion} {hi : ℕ} {r : MemoryRegion}
    (h : RegionsCover rs hi (out ++ [r])) : RegionsCover rs r.base out ∧ r.Paged ∧
      ∀ x, r.base ≤ x → x < r.stop → typeAt rs x = r.typ := by
  obtain ⟨htiles, -, -, hval⟩ := h.tiles.of_concat
  refine ⟨⟨htiles, fun s hs => h.paged s (List.mem_append_left _ hs)⟩, ?_, hval⟩
  exact h.paged r (List.mem_append_right _ (List.mem_singleton_self r))

namespace MemoryRegionArray

variable {LEN : ℕ} {rs : List MemoryRegion} {cur right : ℕ} {res : MemoryRegionArray LEN}
  {A : Fault → Prop}

/-- **The invariant of the sweep.** -/
structure Swept (rs : List MemoryRegion) (cur : ℕ) (res : MemoryRegionArray LEN) : Prop where
  count_le : res.count ≤ LEN
  le : cur ≤ lastEnd rs
  dvd : PAGE_SIZE ∣ cur
  covers : RegionsCover rs cur res.active
  /-- each boundary that has been passed has an entry -/
  count : res.count + ((boundaries rs).filter (cur < ·)).card = (boundaries rs).card

theorem swept_new (rs : List MemoryRegion) : Swept rs 0 (new : MemoryRegionArray LEN) := by
  refine ⟨Nat.zero_le LEN, Nat.zero_le _, dvd_zero _, ⟨.nil, fun r hr => by cases hr⟩, ?_⟩
  rw [Finset.filter_true_of_mem]
  · exact Nat.zero_add _
  · intro b hb
    exact Nat.pos_of_ne_zero (mem_boundaries.mp hb).1

theorem active_push {region : MemoryRegion} {res' : MemoryRegionArray LEN}
    (h : res.push region = some res') :
    res.count < LEN ∧ res'.count = res.count + 1 ∧ res'.active = res.active ++ [region] := by
  unfold push at h
  by_cases hlt : res.count < LEN
  · rw [dif_pos hlt] at h
    obtain rfl := Option.some.inj h
    exact ⟨hlt, rfl, Packed.take_set res.regions hlt⟩
  · rw [dif_neg hlt] at h
    cases h

/-- The boundaries that are left after the next one. -/
theorem card_filter_next (hmem : right ∈ boundaries rs) (hlt : cur < right)
    (hnext : ∀ b ∈ boundaries rs, cur < b → right ≤ b) :
    ((boundaries rs).filter (right < ·)).card + 1 = ((boundaries rs).filter (cur < ·)).card := by
  have herase : (boundaries rs).filter (right < ·) =
      ((boundaries rs).filter (cur < ·)).erase right := by
    ext b
    rw [Finset.mem_erase, Finset.mem_filter, Finset.mem_filter]
    constructor
    · rintro ⟨hb, hright⟩
      exact ⟨hright.ne', hb, hlt.trans hright⟩
    · rintro ⟨hne, hb, hcur⟩
      exact ⟨hb, lt_of_le_of_ne (hnext b hb hcur) hne.symm⟩
  rw [herase]
  exact Finset.card_erase_add_one (Finset.mem_filter.mpr ⟨hmem, hlt⟩)

/-- **One round of the sweep.** -/
theorem Swept.step (h : Swept rs cur res) (hpaged : ∀ r ∈ rs, r.Paged)
    (hnext : nextRegionBoundary rs cur = some right) {res' : MemoryRegionArray LEN}
    (hpush : res.push ⟨cur, right - cur, typeAt rs cur⟩ = some res') : Swept rs right res' := by
  obtain ⟨hmem, hlt, hmin⟩ := nextRegionBoundary_spec hnext
  obtain ⟨hroom, hcount, hactive⟩ := active_push hpush
  have hle := le_lastEnd_of_mem hmem
  have hdvd : PAGE_SIZE ∣ right ∧ right < 2 ^ 64 := by
    obtain ⟨-, r, hr, hb⟩ := mem_boundaries.mp hmem
    have hr := hpaged r hr
    have hpos := hr.pos
    have hvalid : r.stop < 2 ^ 64 := hr.valid
    rcases hb with rfl | rfl
    · exact ⟨hr.base_dvd, hpos.trans hvalid⟩
    · exact ⟨hr.stop_dvd, hvalid⟩
  have hstop : MemoryRegion.stop ⟨cur, right - cur, typeAt rs cur⟩ = right := by
    unfold MemoryRegion.stop
    simp only
    omega
  -- from here on the new entry is known by its ends and its type
  obtain ⟨r, hr⟩ : ∃ r, r = (⟨cur, right - cur, typeAt rs cur⟩ : MemoryRegion) := ⟨_, rfl⟩
  have hbase : r.base = cur := by rw [hr]
  have htyp : r.typ = typeAt rs cur := by rw [hr]
  rw [← hr] at hstop hactive
  subst hstop
  refine ⟨by omega, hle, hdvd.1, ?_, ?_⟩
  · rw [hactive]
    refine h.covers.concat hbase ⟨hbase ▸ h.dvd, hdvd.1, hbase ▸ hlt, hdvd.2⟩ ?_
    intro x hx hx'
    rw [htyp]
    exact typeAt_eq_of_lt hmin hx hx'
  · have hcard := card_filter_next hmem hlt hmin
    have hold := h.count
    omega

/-- **The sweep** covers all addresses up to the last end, or runs out of entries because
there are more boundaries than entries. -/
theorem post_sweep (hpaged : ∀ r ∈ rs, r.Paged) (h : Swept rs cur res) :
    Post (fun e => e = .assertion ∧ LEN < (boundaries rs).card) (sweep rs (lastEnd rs) cur res)
      (fun res' => Swept rs (lastEnd rs) res') := by
  induction hn : lastEnd rs - cur using Nat.strong_induction_on generalizing cur res with
  | _ n ih =>
      rw [sweep]
      refine post_ite ?_ ?_
      · intro hlt
        split
        · rename_i hnone
          exact absurd hnone (nextRegionBoundary_ne_none hlt)
        · rename_i right hnext
          obtain ⟨hmem, hright, hmin⟩ := nextRegionBoundary_spec hnext
          refine Post.bind (post_sub (fun hgt => absurd hright.le (not_le.mpr hgt))) ?_
          rintro _ ⟨rfl, -⟩
          refine Post.bind (post_unwrap ?_) ?_
          · intro hfull
            have hroom : ¬res.count < LEN := by
              intro hroom
              unfold push at hfull
              rw [dif_pos hroom] at hfull
              cases hfull
            have hcard := card_filter_next hmem hright hmin
            have hcount := h.count
            exact ⟨rfl, by omega⟩
          · intro res' hpush
            have hnew := h.step hpaged hnext hpush
            exact ih _ (by omega) hnew rfl
      · intro hend
        have hle := h.le
        obtain rfl : cur = lastEnd rs := by omega
        exact h

/-- There is an entry for each boundary. -/
theorem Swept.card_le (h : Swept rs (lastEnd rs) res) : (boundaries rs).card ≤ LEN := by
  have hcount := h.count
  rw [Finset.filter_false_of_mem (fun b hb => not_lt.mpr (le_lastEnd_of_mem hb)),
    Finset.card_empty] at hcount
  have := h.count_le
  omega

/-! ## The third loop -/

/-- The state of the third loop: what is kept covers the addresses up to the entries that are
still to be read. -/
structure Merging (rs split : List MemoryRegion) (orig : Vector MemoryRegion LEN) (hi i : ℕ)
    (s : Vector MemoryRegion LEN × ℕ) (out : List MemoryRegion) (last : MemoryRegion) : Prop where
  packed : Packed orig s.1 i (out ++ [last])
  count : s.2 = out.length + 1
  covers : RegionsCover rs last.stop (out ++ [last])
  different : ((out ++ [last]).map MemoryRegion.typ).IsChain (· ≠ ·)
  rest : Tiles regionView (typeAt rs) hi last.stop (split.drop i)

/-- Two entries of one type that touch make one entry. -/
theorem paged_join {last x : MemoryRegion} (hlast : last.Paged) (hx : x.Paged)
    (hstart : x.base = last.stop) :
    MemoryRegion.stop ⟨last.base, last.len + x.len, last.typ⟩ = x.stop ∧
      MemoryRegion.Paged ⟨last.base, last.len + x.len, last.typ⟩ := by
  have hlastpos := hlast.pos
  have hxpos := hx.pos
  have hxvalid : x.stop < 2 ^ 64 := hx.valid
  have hstop : MemoryRegion.stop ⟨last.base, last.len + x.len, last.typ⟩ = x.stop := by
    unfold MemoryRegion.stop at hstart ⊢
    simp only
    omega
  refine ⟨hstop, hlast.base_dvd, hstop.symm ▸ hx.stop_dvd, ?_, ?_⟩
  · rw [hstop]
    simp only
    omega
  · unfold MemoryRegion.Valid
    rw [hstop]
    exact hxvalid

/-- The types of the entries after one with another type is kept. -/
theorem isChain_typ_concat {out : List MemoryRegion} {last x : MemoryRegion}
    (h : ((out ++ [last]).map MemoryRegion.typ).IsChain (· ≠ ·)) (hne : ¬x.typ = last.typ) :
    ((out ++ [last] ++ [x]).map MemoryRegion.typ).IsChain (· ≠ ·) := by
  rw [List.map_append, List.isChain_append]
  refine ⟨h, .singleton _, ?_⟩
  intro t ht u hu
  rw [List.map_append, List.map_singleton, List.getLast?_concat] at ht
  rw [List.map_singleton, List.head?_singleton] at hu
  obtain rfl := Option.mem_some_iff.mp ht
  obtain rfl := Option.mem_some_iff.mp hu
  exact fun heq => hne heq.symm

/-- The entry that a round reads: it begins where what is kept ends. -/
theorem Merging.read {hi i : ℕ} {s : Vector MemoryRegion LEN × ℕ} {out : List MemoryRegion}
    {last : MemoryRegion} (h : Merging rs res.active res.regions hi i s out last)
    (hcount : res.count ≤ LEN) (hi' : i < res.count) :
    ∃ x, res.active[i]? = some x ∧
      (active (⟨s.1, res.count⟩ : MemoryRegionArray LEN))[i]? = some x ∧ x.base = last.stop ∧
      (∀ y, last.stop ≤ y → y < x.stop → typeAt rs y = x.typ) ∧
      Tiles regionView (typeAt rs) hi x.stop (res.active.drop (i + 1)) := by
  obtain ⟨x, hx⟩ : ∃ x, res.regions[i]? = some x :=
    ⟨_, Vector.getElem?_eq_getElem (hi'.trans_le hcount)⟩
  have hxa : res.active[i]? = some x := by
    unfold active
    rw [List.getElem?_take, if_pos hi', Vector.getElem?_toList, hx]
  have hrest := h.rest
  rw [List.drop_eq_getElem?_toList_append, hxa] at hrest
  obtain ⟨hstart, -, hxval, hrest⟩ := hrest.of_cons
  refine ⟨x, hxa, ?_, hstart, hxval, hrest⟩
  unfold active
  rw [List.getElem?_take, if_pos hi', Vector.getElem?_toList, h.packed.rest i le_rfl, hx]

/-- **One round of the third loop.** -/
theorem Merging.step {hi i : ℕ} {s : Vector MemoryRegion LEN × ℕ} {out : List MemoryRegion}
    {last : MemoryRegion} (h : Merging rs res.active res.regions hi i s out last)
    (hcount : res.count ≤ LEN) (hi' : i < res.count) (hpaged : ∀ r ∈ res.active, r.Paged) :
    Post A (mergeBody res.count i s) (fun s' =>
      ∃ out' last', Merging rs res.active res.regions hi (i + 1) s' out' last') := by
  obtain ⟨x, hxa, hread, hstart, hxval, hrest⟩ := h.read hcount hi'
  have hxp := hpaged x (List.mem_of_getElem? hxa)
  obtain ⟨regions, mergedCount⟩ := s
  obtain ⟨hpacked, rfl, hcovers, hdiff, -⟩ := h
  simp only at hpacked hread
  obtain ⟨hout, hlastp, hlastval⟩ := hcovers.of_concat
  unfold mergeBody
  simp only [hread]
  refine Post.bind (post_unwrap (fun hnone => by cases hnone)) ?_
  rintro _ ⟨rfl⟩
  refine Post.bind (post_sub (fun hlt => by omega)) ?_
  rintro _ ⟨rfl, -⟩
  rw [Nat.add_sub_cancel]
  refine Post.bind hpacked.post_load_last ?_
  rintro _ rfl
  refine post_ite ?_ ?_
  · intro htyp
    obtain ⟨hstop, hpiece⟩ := paged_join hlastp hxp hstart
    have hxvalid : x.stop < 2 ^ 64 := hxp.valid
    have hadd : last.base + (last.len + x.len) = x.stop := hstop
    refine Post.bind (post_add (fun hov => by omega)) ?_
    rintro _ ⟨rfl, -⟩
    refine Post.bind (hpacked.pop.post_push (hi'.trans_le hcount)) ?_
    intro v' hv'
    refine ⟨out, _, hv', rfl, hout.concat rfl hpiece ?_, ?_, ?_⟩
    · intro y hy hy'
      rw [hstop] at hy'
      by_cases hyl : y < last.stop
      · exact hlastval y hy hyl
      · exact (hxval y (not_lt.mp hyl) hy').trans htyp
    · rw [List.map_append] at hdiff ⊢
      exact hdiff
    · rw [hstop]
      exact hrest
  · intro htyp
    have hlen : out.length + 1 = (out ++ [last]).length := by
      rw [List.length_append, List.length_singleton]
    rw [hlen]
    refine Post.bind (hpacked.post_push (hi'.trans_le hcount)) ?_
    intro v' hv'
    exact ⟨out ++ [last], x, hv', rfl, hcovers.concat hstart hxp hxval,
      isChain_typ_concat hdiff htyp, hrest⟩

/-- **What `into_non_overlapping` returns** for the aligned regions `rs`: the runs of the types
of the addresses. -/
structure IsMemoryMap (rs : List MemoryRegion) (out : MemoryRegionArray LEN) : Prop where
  count_le : out.count ≤ LEN
  covers : RegionsCover rs (lastEnd rs) out.active
  different : (out.active.map MemoryRegion.typ).IsChain (· ≠ ·)

theorem length_active (hcount : res.count ≤ LEN) : res.active.length = res.count := by
  unfold active
  rw [List.length_take, Vector.length_toList, min_eq_left hcount]

/-- **The third loop** joins neighbours of one type. -/
theorem post_mergeLoop (h : Swept rs (lastEnd rs) res) (hne : res.active ≠ []) :
    Post A (forRange (mergeBody res.count) 1 (res.count - 1) (res.regions, 1)) (fun s =>
      IsMemoryMap rs (⟨s.1, s.2⟩ : MemoryRegionArray LEN)) := by
  have hlen := length_active h.count_le
  obtain ⟨first, tail, hactive⟩ := List.exists_cons_of_ne_nil hne
  have hcount : 1 ≤ res.count := by
    rw [← hlen, hactive]
    exact Nat.le_add_left 1 _
  have hfirst : res.regions.toList.take 1 = [first] := by
    have htake := congrArg (List.take 1) hactive
    unfold active at htake
    rw [List.take_take, min_eq_left hcount] at htake
    exact htake
  have hpacked := Packed.take res.regions (hcount.trans h.count_le)
  rw [hfirst] at hpacked
  have htiles := h.covers.tiles
  rw [hactive] at htiles
  have hstart : Merging rs res.active res.regions (lastEnd rs) 1 (res.regions, 1) [] first := by
    have hp := h.covers.paged first (by rw [hactive]; exact List.mem_cons_self)
    obtain ⟨hbase, -, hval, hrest⟩ := htiles.of_cons
    refine ⟨hpacked, rfl, ?_, .singleton _, ?_⟩
    · exact RegionsCover.concat ⟨.nil, fun r hr => by cases hr⟩ hbase hp hval
    · rw [hactive]
      exact hrest
  have hloop := post_forRange (A := A) (f := mergeBody res.count)
    (fun i s => ∃ out last, Merging rs res.active res.regions (lastEnd rs) i s out last)
    (res.count - 1) 1 (res.regions, 1) ⟨[], first, hstart⟩ (by
      rintro i s - hi ⟨out, last, hm⟩
      exact hm.step h.count_le (by omega) h.covers.paged)
  refine hloop.mono ?_
  rintro ⟨v, c⟩ ⟨out, last, hm⟩
  obtain ⟨hpacked, hc, hcovers, hdiff, hrest⟩ := hm
  rw [Nat.add_sub_cancel' hcount] at hpacked hrest
  rw [← hlen, List.drop_length] at hrest
  have hclen : c = (out ++ [last]).length := by
    rw [List.length_append, List.length_singleton]
    exact hc
  have hfront : (⟨v, c⟩ : MemoryRegionArray LEN).active = out ++ [last] := by
    unfold active
    rw [hclen]
    exact hpacked.front
  refine ⟨?_, ?_, ?_⟩
  · show c ≤ LEN
    rw [hclen]
    exact hpacked.length_le.trans h.count_le
  · rw [hfront, ← hrest.eq_of_nil]
    exact hcovers
  · rw [hfront]
    exact hdiff

/-- **`into_non_overlapping`** returns the memory map, unless there are more boundaries than
entries. -/
theorem post_intoNonOverlapping {a : MemoryRegionArray LEN} (hcount : a.count ≤ LEN)
    (hvalid : ∀ r ∈ a.active, r.Valid) (hrounds : ∀ r ∈ a.active, r.Rounds) :
    Post (fun e => e = .assertion ∧ LEN < (boundaries (alignedRegions a.active)).card)
      a.intoNonOverlapping (fun out => IsMemoryMap (alignedRegions a.active) out ∧
        (boundaries (alignedRegions a.active)).card ≤ LEN) := by
  unfold intoNonOverlapping
  refine Post.bind (post_alignLoop hrounds hcount) ?_
  rintro ⟨v, c⟩ halign
  simp only at halign ⊢
  rw [halign]
  have hpaged : ∀ r ∈ alignedRegions a.active, r.Paged :=
    fun r hr => paged_of_mem hvalid hrounds hr
  refine Post.bind (post_sweep hpaged (swept_new _)) ?_
  intro res hres
  refine post_ite ?_ ?_
  · intro hnil
    refine ⟨⟨hres.count_le, hres.covers, ?_⟩, hres.card_le⟩
    rw [hnil]
    exact .nil
  · intro hne
    refine Post.bind (post_mergeLoop hres hne) ?_
    rintro ⟨v', c'⟩ hmap
    exact ⟨hmap, hres.card_le⟩

/-! ## The memory map -/

section

variable {ss : List MemoryRegion} {out : MemoryRegionArray LEN} {LEN' : ℕ}
  {out' : MemoryRegionArray LEN'}

/-- **There is one memory map.** -/
theorem IsMemoryMap.unique (h : IsMemoryMap rs out) (h' : IsMemoryMap ss out')
    (hend : lastEnd ss = lastEnd rs)
    (htype : ∀ x, x < lastEnd rs → typeAt ss x = typeAt rs x) : out'.active = out.active := by
  have htiles := h'.covers.tiles
  rw [hend] at htiles
  refine Tiles.unique (htiles.congr (fun x _ hx => htype x hx)) h.covers.tiles ?_ ?_
  · exact (List.isChain_map MemoryRegion.typ).mp h'.different
  · exact (List.isChain_map MemoryRegion.typ).mp h.different

/-- The map has the types that it was made from. -/
theorem IsMemoryMap.typeAt_active (h : IsMemoryMap rs out) {x : ℕ} (hx : x < lastEnd rs) :
    typeAt out.active x = typeAt rs x := by
  obtain ⟨r, hr, hcov⟩ := h.covers.tiles.exists_mem (Nat.zero_le x) hx
  have hall : ∀ s ∈ out.active, s.base ≤ x ∧ x < s.stop → s.typ = typeAt rs x :=
    fun s hs hsx => ((h.covers.tiles.of_mem hs).2.2.2 x hsx.1 hsx.2).symm
  rw [typeAt_eq_iff]
  exact Or.inl ⟨⟨r, hr, hcov, hall r hr hcov⟩, fun s hs hsx => (hall s hs hsx).ge⟩

theorem IsMemoryMap.lastEnd_active (h : IsMemoryMap rs out) :
    lastEnd out.active = lastEnd rs :=
  lastEnd_of_tiles h.covers.tiles

/-- Each boundary of the map is the end of an entry. -/
theorem IsMemoryMap.card_boundaries_le (h : IsMemoryMap rs out) :
    (boundaries out.active).card ≤ LEN := by
  have hsub : boundaries out.active ⊆ (out.active.map MemoryRegion.stop).toFinset := by
    intro b hb
    rw [List.mem_toFinset, List.mem_map]
    obtain ⟨hne, r, hr, rfl | rfl⟩ := mem_boundaries.mp hb
    · rcases h.covers.tiles.start_eq hr with heq | hs
      · exact absurd heq hne
      · exact hs
    · exact ⟨r, hr, rfl⟩
  calc (boundaries out.active).card
      ≤ (out.active.map MemoryRegion.stop).toFinset.card := Finset.card_le_card hsub
    _ ≤ (out.active.map MemoryRegion.stop).length := List.toFinset_card_le _
    _ = out.count := by rw [List.length_map, length_active h.count_le]
    _ ≤ LEN := h.count_le

end

end MemoryRegionArray

/-- **What the list of regions is for**: the addresses from 0 to the last end of an aligned
region, each with its type. -/
structure NonOverlapping (aligned out : List MemoryRegion) : Prop where
  pages : ∀ r ∈ out, PAGE_SIZE ∣ r.base ∧ PAGE_SIZE ∣ r.stop ∧ r.base < r.stop
  sorted : out.Pairwise (fun r s => r.base < s.base)
  first : ∀ r ∈ out.head?, r.base = 0
  contiguous : out.IsChain (fun r s => r.stop = s.base)
  last : lastEnd out = lastEnd aligned
  types : ∀ r ∈ out, ∀ x, r.base ≤ x → x < r.stop → IsTypeAt aligned x r.typ
  different : out.IsChain (fun r s => r.typ ≠ s.typ)

open MemoryRegionArray in
theorem MemoryRegionArray.IsMemoryMap.nonOverlapping {LEN : ℕ} {rs : List MemoryRegion}
    {out : MemoryRegionArray LEN} (h : IsMemoryMap rs out) : NonOverlapping rs out.active := by
  have htiles := h.covers.tiles
  refine ⟨?_, ?_, ?_, htiles.contiguous, h.lastEnd_active, ?_,
    (List.isChain_map MemoryRegion.typ).mp h.different⟩
  · intro r hr
    have hp := h.covers.paged r hr
    exact ⟨hp.base_dvd, hp.stop_dvd, hp.pos⟩
  · refine List.Pairwise.imp_of_mem ?_ htiles.sorted
    intro r s hr _ hrs
    exact (h.covers.paged r hr).pos.trans_le hrs
  · intro r hr
    cases hout : out.active with
    | nil =>
        rw [hout] at hr
        cases hr
    | cons s tail =>
        rw [hout] at hr htiles
        obtain rfl := Option.mem_some_iff.mp hr
        exact htiles.of_cons.1
  · intro r hr x hx hx'
    exact typeAt_eq_iff.mp ((htiles.of_mem hr).2.2.2 x hx hx')

/-- **`into_non_overlapping`**, for regions that can be rounded to pages. -/
theorem intoNonOverlapping_correct {LEN : ℕ} (a : MemoryRegionArray LEN) (hcount : a.count ≤ LEN)
    (hvalid : ∀ r ∈ a.active, r.Valid) (hrounds : ∀ r ∈ a.active, r.Rounds) :
    -- it runs out of entries only if there are more boundaries than entries
    ((∃ out, a.intoNonOverlapping = .ok out) ↔
      (boundaries (alignedRegions a.active)).card ≤ LEN) ∧
    ∀ out, a.intoNonOverlapping = .ok out →
      NonOverlapping (alignedRegions a.active) out.active ∧
      -- order and duplicates do not matter
      (∀ b : MemoryRegionArray LEN, b.count ≤ LEN → (∀ r, r ∈ b.active ↔ r ∈ a.active) →
        ∃ out', b.intoNonOverlapping = .ok out' ∧ out'.active = out.active) ∧
      -- nor does a second call
      ∃ out', out.intoNonOverlapping = .ok out' ∧ out'.active = out.active := by
  have hpost := MemoryRegionArray.post_intoNonOverlapping hcount hvalid hrounds
  have hreturns : ∀ b : MemoryRegionArray LEN, b.count ≤ LEN → (∀ r ∈ b.active, r.Valid) →
      (∀ r ∈ b.active, r.Rounds) → (boundaries (alignedRegions b.active)).card ≤ LEN →
      ∃ out, b.intoNonOverlapping = .ok out ∧
        MemoryRegionArray.IsMemoryMap (alignedRegions b.active) out := by
    intro b hb hbv hbr hcard
    have hpost := MemoryRegionArray.post_intoNonOverlapping hb hbv hbr
    obtain ⟨out, hok, hmap, -⟩ := (hpost.allow (B := fun _ => False)
      (fun e he => absurd he.2 (not_lt.mpr hcard))).exists_ok
    exact ⟨out, hok, hmap⟩
  constructor
  · constructor
    · rintro ⟨out, hok⟩
      exact (hpost.of_ok hok).2
    · intro hcard
      obtain ⟨out, hok, -⟩ := hreturns a hcount hvalid hrounds hcard
      exact ⟨out, hok⟩
  · intro out hok
    obtain ⟨hmap, hcard⟩ := hpost.of_ok hok
    refine ⟨hmap.nonOverlapping, ?_, ?_⟩
    · intro b hb hsame
      have halign := mem_alignedRegions_congr hsame
      obtain ⟨out', hok', hmap'⟩ := hreturns b hb (fun r hr => hvalid r ((hsame r).mp hr))
        (fun r hr => hrounds r ((hsame r).mp hr)) (by rw [boundaries_congr halign]; exact hcard)
      exact ⟨out', hok', hmap.unique hmap' (lastEnd_congr halign)
        (fun x _ => by rw [typeAt_congr halign])⟩
    · have hpaged := hmap.covers.paged
      have hself := alignedRegions_of_paged hpaged
      obtain ⟨out', hok', hmap'⟩ := hreturns out hmap.count_le (fun r hr => (hpaged r hr).valid)
        (fun r hr => (hpaged r hr).rounds) (by rw [hself]; exact hmap.card_boundaries_le)
      rw [hself] at hmap'
      exact ⟨out', hok', hmap.unique hmap' hmap.lastEnd_active
        (fun x hx => hmap.typeAt_active hx)⟩

/-- Usable regions of which two overlap, with a bad page inside and a hole. -/
def sampleRegions : MemoryRegionArray 8 :=
  ⟨#v[⟨0, 4097, .usable⟩, ⟨4095, 4098, .usable⟩, ⟨8192, 20480, .usable⟩,
    ⟨12289, 4094, .badMemory⟩, ⟨36864, 8192, .usable⟩, .bad, .bad, .bad], 5⟩

theorem intoNonOverlapping_correct_sample : ∃ out, sampleRegions.intoNonOverlapping = .ok out ∧
    NonOverlapping (alignedRegions sampleRegions.active) out.active := by
  obtain ⟨hiff, hall⟩ :=
    intoNonOverlapping_correct sampleRegions (by decide) (by decide) (by decide)
  obtain ⟨out, hok⟩ := hiff.mpr (by decide)
  exact ⟨out, hok, (hall out hok).1⟩

/-- A region in the last page of the machine word. -/
def topRegions : MemoryRegionArray 2 := ⟨#v[⟨2 ^ 64 - 2, 1, .reserved⟩, .bad], 1⟩

/-- **The last page of the machine word cannot be rounded up**: the call panics in the first
loop, before any entry is made. -/
theorem intoNonOverlapping_panics : topRegions.count ≤ 2 ∧ (∀ r ∈ topRegions.active, r.Valid) ∧
    (boundaries (alignedRegions topRegions.active)).card ≤ 2 ∧
    Exec.forRange MemoryRegionArray.alignBody 0 topRegions.count (topRegions.regions, 0) =
      .error .assertion ∧
    (topRegions.intoNonOverlapping.toOption).isNone := by
  have hloop : Exec.forRange MemoryRegionArray.alignBody 0 topRegions.count
      (topRegions.regions, 0) = .error .assertion := by
    unfold topRegions
    simp [Exec.forRange, MemoryRegionArray.alignBody, Exec.load, Exec.unwrap,
      MemoryRegion.asAligned, alignUp, checkedAdd, MemoryRegion.stop, PAGE_SIZE, bind, Except.bind]
  refine ⟨by decide, by decide, by decide, hloop, ?_⟩
  unfold MemoryRegionArray.intoNonOverlapping
  rw [hloop]
  rfl

end Vostd
