/-
# Paging constants and page table configurations

The constants of the 4-level paging mode (`mm/mod.rs`, `arch/*/mm/mod.rs`), the
address arithmetic of `page_table/mod.rs` (`page_size`, `pte_index`,
`vaddr_range`, `is_valid_range`) and the configuration record that stands for
the `PageTableConfig` trait.

Addresses are natural numbers; a `usize` is one below `2 ^ 64`.  The quantity
that organises every proof below is `slotNo l a`: the number of the level-`l`
slot that the low 48 bits of `a` fall in.  A walk of the tree reads the base-512
digits of `a` from the top, and two addresses follow the same walk down to level
`l` exactly when they agree in the slot number one level up
(`slotNo_eq_iff`).
-/
import Vostd.Lib.Exec

namespace Vostd

variable {l l' a b n : ℕ}

/-- `Range<usize>`: the addresses from `start` up to but excluding `stop`. -/
structure AddrRange where
  start : ℕ
  stop : ℕ
  deriving DecidableEq, Repr

namespace AddrRange

/-- `Range::contains`. -/
def Contains (r : AddrRange) (a : ℕ) : Prop := r.start ≤ a ∧ a < r.stop

instance (r : AddrRange) (a : ℕ) : Decidable (r.Contains a) :=
  inferInstanceAs (Decidable (_ ∧ _))

end AddrRange

/-! ## Constants -/

/-- The size of a base page. -/
def PAGE_SIZE : ℕ := 4096

/-- `MAX_PADDR`: the end of the physical memory. -/
def MAX_PADDR : ℕ := 0x80000000

/-- `REF_COUNT_MAX`. -/
def REF_COUNT_MAX : ℕ := 2 ^ 63 - 1

/-- The number of entries of a node. -/
def NR_ENTRIES : ℕ := 512

/-- The number of levels. -/
def NR_LEVELS : ℕ := 4

/-- The number of address bits that are translated. -/
def ADDRESS_WIDTH : ℕ := 48

/-- The bits that index one level: `nr_subpage_per_huge().ilog2()`. -/
def nrPteIndexBits : ℕ := 9

/-- The page size at a given level. -/
def pageSize (level : ℕ) : ℕ := PAGE_SIZE <<< (nrPteIndexBits * (level - 1))

/-- The bit offset of the entry index of a level in a virtual address. -/
def pteIndexBitOffset (level : ℕ) : ℕ := 12 + nrPteIndexBits * (level - 1)

/-- The index of the entry for `va` in a node of the given level. -/
def pteIndex (va : ℕ) (level : ℕ) : ℕ :=
  (va >>> pteIndexBitOffset level) &&& (NR_ENTRIES - 1)

/-- `AlignExt::align_down` for a power of two. -/
def alignDown (a n : ℕ) : ℕ := a / n * n

theorem pageSize_eq (level : ℕ) : pageSize level = 4096 * 512 ^ (level - 1) := by
  unfold pageSize PAGE_SIZE nrPteIndexBits
  rw [Nat.shiftLeft_eq, pow_mul]
  norm_num

theorem pageSize_pos (level : ℕ) : 0 < pageSize level := by
  rw [pageSize_eq]
  positivity

theorem pageSize_one : pageSize 1 = 4096 := by decide

theorem pageSize_two : pageSize 2 = 2097152 := by decide

theorem pageSize_three : pageSize 3 = 1073741824 := by decide

theorem pageSize_four : pageSize 4 = 549755813888 := by decide

theorem pageSize_five : pageSize 5 = 281474976710656 := by decide

/-- A huge page consists of 512 pages of the next lower level. -/
theorem pageSize_succ {level : ℕ} (h : 1 ≤ level) :
    pageSize (level + 1) = 512 * pageSize level := by
  rw [pageSize_eq, pageSize_eq]
  obtain ⟨k, rfl⟩ : ∃ k, level = k + 1 := ⟨level - 1, by omega⟩
  simp only [Nat.add_sub_cancel]
  rw [pow_succ]
  ring

/-- Page sizes divide each other upwards. -/
theorem pageSize_dvd (h : l ≤ l') : pageSize l ∣ pageSize l' := by
  rw [pageSize_eq, pageSize_eq]
  exact Nat.mul_dvd_mul_left _ (pow_dvd_pow _ (by omega))

theorem pageSize_le (h : l ≤ l') : pageSize l ≤ pageSize l' :=
  Nat.le_of_dvd (pageSize_pos _) (pageSize_dvd h)

theorem four_thousand_dvd_pageSize (level : ℕ) : 4096 ∣ pageSize level := by
  rw [pageSize_eq]
  exact Nat.dvd_mul_right _ _

/-- `pte_index` as a base-512 digit. -/
theorem pteIndex_eq (va : ℕ) (level : ℕ) :
    pteIndex va level = va / pageSize level % 512 := by
  unfold pteIndex pteIndexBitOffset NR_ENTRIES
  rw [Nat.shiftRight_eq_div_pow, show (512 - 1 : ℕ) = 2 ^ 9 - 1 from by norm_num,
    Nat.and_two_pow_sub_one_eq_mod]
  have hsize : pageSize level = 2 ^ (12 + nrPteIndexBits * (level - 1)) := by
    unfold pageSize PAGE_SIZE
    rw [Nat.shiftLeft_eq, pow_add]
    norm_num
  rw [hsize]

theorem pteIndex_lt (va : ℕ) (level : ℕ) : pteIndex va level < 512 := by
  rw [pteIndex_eq]
  exact Nat.mod_lt _ (by norm_num)

/-! ## Slot numbers -/

/-- The number of the level-`l` slot that the translated bits of `a` fall in. -/
def slotNo (l : ℕ) (a : ℕ) : ℕ := a % 2 ^ 48 / pageSize l

theorem slotNo_succ (h : 1 ≤ l) (a : ℕ) :
    slotNo (l + 1) a = slotNo l a / 512 := by
  unfold slotNo
  rw [pageSize_succ h, Nat.div_div_eq_div_mul, Nat.mul_comm]

/-- Above the top level there is only one slot. -/
theorem slotNo_five (a : ℕ) : slotNo 5 a = 0 := by
  unfold slotNo
  rw [pageSize_five]
  exact Nat.div_eq_of_lt (Nat.mod_lt _ (by norm_num))

/-- The index of an address in its node is the last digit of its slot number. -/
theorem pteIndex_eq_slotNo (h : 1 ≤ l) (h4 : l ≤ 4) (a : ℕ) :
    pteIndex a l = slotNo l a % 512 := by
  rw [pteIndex_eq, slotNo]
  interval_cases l
  · rw [pageSize_one]; omega
  · rw [pageSize_two]; omega
  · rw [pageSize_three]; omega
  · rw [pageSize_four]; omega

/-- **One step of a walk.**  Two addresses share a slot exactly when they share
the slot above and the index in its node. -/
theorem slotNo_eq_iff (h : 1 ≤ l) (h4 : l ≤ 4) (a b : ℕ) :
    slotNo l a = slotNo l b ↔
      slotNo (l + 1) a = slotNo (l + 1) b ∧ pteIndex a l = pteIndex b l := by
  rw [slotNo_succ h, slotNo_succ h, pteIndex_eq_slotNo h h4, pteIndex_eq_slotNo h h4]
  constructor
  · intro hab
    rw [hab]
    exact ⟨rfl, rfl⟩
  · rintro ⟨hdiv, hmod⟩
    rw [← Nat.div_add_mod (slotNo l a) 512, ← Nat.div_add_mod (slotNo l b) 512, hdiv, hmod]

/-- Sharing a slot is inherited by every level above. -/
theorem slotNo_mono (h : 1 ≤ l) (hl : l ≤ l')
    (hab : slotNo l a = slotNo l b) : slotNo l' a = slotNo l' b := by
  induction l', hl using Nat.le_induction with
  | base => exact hab
  | succ k hk ih => rw [slotNo_succ (by omega), slotNo_succ (by omega), ih]

/-- Addresses of one slot have the same index at every level above it. -/
theorem pteIndex_of_slotNo (h : 1 ≤ l) (hl : l ≤ l') (h4 : l' ≤ 4)
    (hab : slotNo l a = slotNo l b) : pteIndex a l' = pteIndex b l' :=
  ((slotNo_eq_iff (by omega) h4 a b).mp (slotNo_mono h hl hab)).2

/-! ## Pages of one size -/

theorem alignDown_le (a n : ℕ) : alignDown a n ≤ a := Nat.div_mul_le_self a n

theorem lt_alignDown_add (a : ℕ) (hn : 0 < n) : a < alignDown a n + n := by
  unfold alignDown
  have h := Nat.div_add_mod a n
  have hlt := Nat.mod_lt a hn
  rw [Nat.mul_comm] at h
  omega

theorem dvd_alignDown (a n : ℕ) : n ∣ alignDown a n := Nat.dvd_mul_left n (a / n)

theorem alignDown_of_dvd (h : n ∣ a) : alignDown a n = a := Nat.div_mul_cancel h

/-- Two addresses of one page. -/
theorem div_eq_iff_mem (hn : 0 < n) :
    a / n = b / n ↔ alignDown b n ≤ a ∧ a < alignDown b n + n := by
  unfold alignDown
  rw [Nat.div_eq_iff hn]
  have hsub : b / n * n + n - 1 + 1 = b / n * n + n := by omega
  constructor
  · rintro ⟨h1, h2⟩
    exact ⟨h1, by omega⟩
  · rintro ⟨h1, h2⟩
    exact ⟨h1, by omega⟩

/-- Addresses of one page are in one page of every larger size. -/
theorem div_pageSize_mono (hl : l ≤ l') (h : a / pageSize l = b / pageSize l) :
    a / pageSize l' = b / pageSize l' := by
  obtain ⟨t, ht⟩ := pageSize_dvd hl
  rw [ht, ← Nat.div_div_eq_div_mul, ← Nat.div_div_eq_div_mul, h]

/-- Addresses of one page share its slot. -/
theorem slotNo_of_div (hl : 1 ≤ l) (h5 : l ≤ 5)
    (h : a / pageSize l = b / pageSize l) : slotNo l a = slotNo l b := by
  unfold slotNo
  interval_cases l <;>
    simp only [pageSize_one, pageSize_two, pageSize_three, pageSize_four, pageSize_five] at * <;>
    omega

/-- An address with a non-zero index shares the node with the address before it. -/
theorem div_pageSize_pred (hl : 1 ≤ l) (hdvd : pageSize l ∣ a)
    (hidx : pteIndex a l ≠ 0) : a / pageSize (l + 1) = (a - 1) / pageSize (l + 1) := by
  obtain ⟨k, rfl⟩ := hdvd
  have hpos := pageSize_pos l
  rw [pteIndex_eq, Nat.mul_div_cancel_left k hpos] at hidx
  have hk : (pageSize l * k - 1) / pageSize l = k - 1 := by
    obtain ⟨j, rfl⟩ : ∃ j, k = j + 1 := ⟨k - 1, by omega⟩
    rw [Nat.div_eq_iff hpos, Nat.add_sub_cancel, Nat.mul_comm j, Nat.mul_add, Nat.mul_one]
    omega
  rw [pageSize_succ hl, Nat.mul_comm 512, ← Nat.div_div_eq_div_mul, ← Nat.div_div_eq_div_mul,
    Nat.mul_div_cancel_left k hpos, hk]
  omega

/-- An address with index zero is the start of its node. -/
theorem pageSize_succ_dvd (hl : 1 ≤ l) (hdvd : pageSize l ∣ a)
    (hidx : pteIndex a l = 0) : pageSize (l + 1) ∣ a := by
  obtain ⟨k, rfl⟩ := hdvd
  rw [pteIndex_eq, Nat.mul_div_cancel_left k (pageSize_pos l)] at hidx
  obtain ⟨j, rfl⟩ := Nat.dvd_of_mod_eq_zero hidx
  rw [pageSize_succ hl]
  exact ⟨j, by ring⟩

/-! ## Configurations -/

/-- The `PageTableConfig` trait together with the paging constants it refers to.
The fields of the second group are what the trait demands of an implementation
and what every implementation in the repository satisfies.

`maxItemLevel` bounds the levels that `item_into_raw` can return: a user table
only ever holds base pages.  `tracked` says whether the item with a given
property owns a counted reference to its frame. -/
structure PageTableConfig (P : Type) where
  topLevelIndexRange : AddrRange
  topLevelCanUnmap : Bool
  highestTranslationLevel : ℕ
  vaSignExt : Bool
  maxItemLevel : ℕ
  tracked : P → Bool
  /-- the managed top-level indices are not empty -/
  index_lt : topLevelIndexRange.start < topLevelIndexRange.stop
  /-- they index a node -/
  index_le : topLevelIndexRange.stop ≤ 512
  /-- they lie on one side of the sign bit -/
  index_half : topLevelIndexRange.stop ≤ 256 ∨ 256 ≤ topLevelIndexRange.start
  highest_le : highestTranslationLevel ≤ 4

namespace PageTableConfig

variable {P : Type} (cfg : PageTableConfig P)

/-- `pt_va_range_start`. -/
def ptVaRangeStart : ℕ := cfg.topLevelIndexRange.start <<< pteIndexBitOffset NR_LEVELS

/-- `pt_va_range_end`: the last address, computed with `wrapping_sub`. -/
def ptVaRangeEnd : ℕ :=
  (cfg.topLevelIndexRange.stop <<< pteIndexBitOffset NR_LEVELS + (2 ^ 64 - 1)) % 2 ^ 64

/-- `sign_bit_of_va`. -/
def signBitOfVa (va : ℕ) : Bool := (va >>> (ADDRESS_WIDTH - 1)) &&& 1 != 0

/-- `apply_sign_ext`. -/
def applySignExt (va : ℕ) : ℕ := va ||| ((2 ^ 64 - 1) ^^^ (1 <<< ADDRESS_WIDTH - 1))

/-- `vaddr_range`: the first and the last address that the table manages. -/
def vaddrRange : ℕ × ℕ :=
  if cfg.vaSignExt && signBitOfVa cfg.ptVaRangeStart then
    (applySignExt cfg.ptVaRangeStart, applySignExt cfg.ptVaRangeEnd)
  else (cfg.ptVaRangeStart, cfg.ptVaRangeEnd)

/-- `is_valid_range`. -/
def isValidRange (r : AddrRange) : Bool :=
  decide (r.start < r.stop) &&
    (decide (cfg.vaddrRange.1 ≤ r.start) && decide (r.stop - 1 ≤ cfg.vaddrRange.2))

/-- The addresses a table of this configuration manages. -/
def Managed (a : ℕ) : Prop := cfg.vaddrRange.1 ≤ a ∧ a ≤ cfg.vaddrRange.2

/-- The addresses that the hardware translates: those whose untranslated bits
are the extension of the translated ones. -/
def Canonical (a : ℕ) : Prop :=
  if cfg.vaSignExt then a < 2 ^ 47 ∨ (2 ^ 64 - 2 ^ 47 ≤ a ∧ a < 2 ^ 64) else a < 2 ^ 48

/-- The untranslated bits of the managed addresses. -/
def base : ℕ :=
  if cfg.vaSignExt = true ∧ 256 ≤ cfg.topLevelIndexRange.start then 2 ^ 64 - 2 ^ 48 else 0

theorem applySignExt_eq {va : ℕ} (h : va < 2 ^ 48) : applySignExt va = va + (2 ^ 64 - 2 ^ 48) := by
  have hmask : (2 ^ 64 - 1) ^^^ (1 <<< ADDRESS_WIDTH - 1) = 2 ^ 48 * 65535 := by decide
  unfold applySignExt
  rw [hmask, Nat.or_comm, ← Nat.two_pow_add_eq_or_of_lt h]
  omega

theorem ptVaRangeStart_eq : cfg.ptVaRangeStart = cfg.topLevelIndexRange.start * 549755813888 := by
  unfold ptVaRangeStart pteIndexBitOffset nrPteIndexBits NR_LEVELS
  rw [Nat.shiftLeft_eq]

theorem ptVaRangeEnd_eq :
    cfg.ptVaRangeEnd = cfg.topLevelIndexRange.stop * 549755813888 - 1 := by
  have hlt := cfg.index_lt
  have hle := cfg.index_le
  unfold ptVaRangeEnd pteIndexBitOffset nrPteIndexBits NR_LEVELS
  rw [Nat.shiftLeft_eq]
  omega

theorem signBitOfVa_ptVaRangeStart :
    signBitOfVa cfg.ptVaRangeStart = decide (256 ≤ cfg.topLevelIndexRange.start) := by
  have hlt := cfg.index_lt
  have hle := cfg.index_le
  unfold signBitOfVa
  rw [ptVaRangeStart_eq, Nat.shiftRight_eq_div_pow, Nat.and_one_is_mod, Bool.eq_iff_iff]
  simp only [bne_iff_ne, decide_eq_true_eq, ADDRESS_WIDTH]
  omega

/-- The managed addresses are those of the managed top-level slots. -/
theorem managed_iff (a : ℕ) : cfg.Managed a ↔
    cfg.base + cfg.topLevelIndexRange.start * 549755813888 ≤ a ∧
      a < cfg.base + cfg.topLevelIndexRange.stop * 549755813888 := by
  have hlt := cfg.index_lt
  have hle := cfg.index_le
  unfold Managed vaddrRange base
  rw [signBitOfVa_ptVaRangeStart, ptVaRangeStart_eq, ptVaRangeEnd_eq]
  by_cases h : cfg.vaSignExt = true ∧ 256 ≤ cfg.topLevelIndexRange.start
  · rw [if_pos h, if_pos (by simpa using h), applySignExt_eq (by omega), applySignExt_eq (by omega)]
    simp only []
    omega
  · rw [if_neg h, if_neg (by simpa using h)]
    simp only []
    omega

theorem base_cases : cfg.base = 0 ∨ cfg.base = 2 ^ 64 - 2 ^ 48 := by
  unfold base
  split
  · exact Or.inr rfl
  · exact Or.inl rfl

variable {cfg}

/-- A valid range is not empty and all its addresses are managed. -/
theorem managed_of_isValidRange {r : AddrRange} (h : cfg.isValidRange r = true) :
    r.start < r.stop ∧ ∀ a, r.Contains a → cfg.Managed a := by
  unfold isValidRange at h
  simp only [Bool.and_eq_true, decide_eq_true_eq] at h
  obtain ⟨hne, hlo, hhi⟩ := h
  refine ⟨hne, ?_⟩
  rintro a ⟨ha, ha'⟩
  exact ⟨hlo.trans ha, by omega⟩

/-- The low bits of a managed address. -/
theorem Managed.mod_eq {a : ℕ} (h : cfg.Managed a) : a % 2 ^ 48 = a - cfg.base := by
  have hle := cfg.index_le
  rw [managed_iff] at h
  rcases cfg.base_cases with hb | hb <;> omega

theorem Managed.base_le {a : ℕ} (h : cfg.Managed a) : cfg.base ≤ a ∧ a < cfg.base + 2 ^ 48 := by
  have hle := cfg.index_le
  rw [managed_iff] at h
  omega

/-- A managed address indexes a managed slot of the root. -/
theorem Managed.index {a : ℕ} (h : cfg.Managed a) :
    cfg.topLevelIndexRange.Contains (pteIndex a 4) := by
  have hmod := h.mod_eq
  rw [managed_iff] at h
  have hidx : pteIndex a 4 = (a - cfg.base) / 549755813888 := by
    rw [pteIndex_eq_slotNo (by omega) le_rfl, slotNo, hmod, pageSize_four]
    have := cfg.index_le
    omega
  rw [hidx]
  refine ⟨?_, ?_⟩ <;> omega

/-- Managed addresses are canonical. -/
theorem Managed.canonical {a : ℕ} (h : cfg.Managed a) : cfg.Canonical a := by
  have hle := cfg.index_le
  have hhalf := cfg.index_half
  rw [managed_iff] at h
  unfold Canonical
  unfold base at h
  split
  · next hs =>
    by_cases h256 : 256 ≤ cfg.topLevelIndexRange.start
    · rw [if_pos ⟨hs, h256⟩] at h
      omega
    · rw [if_neg (fun hh => h256 hh.2)] at h
      omega
  · next hs =>
    rw [if_neg (fun hh => hs hh.1)] at h
    omega

/-- Canonical addresses share a slot exactly when they fall in the same page of
its size. -/
theorem Canonical.slotNo_eq_iff {a b : ℕ} (ha : cfg.Canonical a) (hb : cfg.Canonical b)
    {l : ℕ} (hl : 1 ≤ l) (hl4 : l ≤ 4) :
    slotNo l a = slotNo l b ↔ a / pageSize l = b / pageSize l := by
  unfold Canonical at ha hb
  unfold slotNo
  cases hs : cfg.vaSignExt <;> rw [hs] at ha hb <;> simp at ha hb <;>
    interval_cases l <;>
    simp only [pageSize_one, pageSize_two, pageSize_three, pageSize_four] <;> omega

/-- The addresses of one slot, as an interval. -/
theorem Canonical.mem_slot_iff {a b : ℕ} (ha : cfg.Canonical a) (hb : cfg.Canonical b)
    {l : ℕ} (hl : 1 ≤ l) (hl4 : l ≤ 4) :
    slotNo l a = slotNo l b ↔
      alignDown b (pageSize l) ≤ a ∧ a < alignDown b (pageSize l) + pageSize l := by
  rw [ha.slotNo_eq_iff hb hl hl4, div_eq_iff_mem (pageSize_pos l)]

/-- All managed addresses agree in their untranslated bits. -/
theorem Managed.slotNo_eq_iff {a b : ℕ} (ha : cfg.Managed a) (hb : cfg.Managed b)
    {l : ℕ} (hl : 1 ≤ l) (hl5 : l ≤ 5) :
    slotNo l a = slotNo l b ↔ a / pageSize l = b / pageSize l := by
  by_cases h : l ≤ 4
  · exact ha.canonical.slotNo_eq_iff hb.canonical hl h
  · obtain rfl : l = 5 := by omega
    have h1 := ha.base_le
    have h2 := hb.base_le
    rw [slotNo_five, slotNo_five, pageSize_five]
    rcases cfg.base_cases with h0 | h0 <;> rw [h0] at h1 h2 <;> omega

end PageTableConfig

end Vostd
