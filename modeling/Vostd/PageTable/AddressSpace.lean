/-
# The addresses of a table

`vaddr_range` and `is_valid_range` of `page_table/mod.rs`, measured against what the
hardware means by the addresses of a table: an address is canonical if its bits above
the translated ones repeat the sign bit (or are zero, where addresses are not sign
extended), and a table manages the canonical addresses whose top-level index is one of
its indices.

The code works with intervals, so the canonical addresses are described as intervals
first (`canonical_iff`), and the managed ones follow by comparing bounds.
-/
import Vostd.PageTable.Config

namespace Vostd

namespace PageTableConfig

variable {P : Type} (cfg : PageTableConfig P)

/-- An address whose bits above the translated ones extend them. -/
def SignExtended (a : ℕ) : Prop :=
  a < 2 ^ 64 ∧ ∀ i, ADDRESS_WIDTH ≤ i → i < 64 →
    a.testBit i = (cfg.vaSignExt && a.testBit (ADDRESS_WIDTH - 1))

/-- The addresses for which the table has an entry at the top level. -/
def Indexed : Set ℕ :=
  {a | cfg.SignExtended a ∧ cfg.topLevelIndexRange.Contains (pteIndex a NR_LEVELS)}

/-- A number of `w` bits that all equal `b`. -/
theorem eq_of_testBit_const {w n : ℕ} {b : Bool} (hn : n < 2 ^ w)
    (h : ∀ j, j < w → n.testBit j = b) : n = if b then 2 ^ w - 1 else 0 := by
  apply Nat.eq_of_testBit_eq
  intro j
  by_cases hj : j < w
  · rw [h j hj]
    cases b with
    | false => simp
    | true => simp [Nat.testBit_two_pow_sub_one, hj]
  · rw [Nat.testBit_lt_two_pow (lt_of_lt_of_le hn (Nat.pow_le_pow_right (by omega) (by omega)))]
    cases b with
    | false => simp
    | true => simp [Nat.testBit_two_pow_sub_one, hj]

/-- The part of an address from bit 47 on, bit by bit. -/
theorem testBit_div_two_pow_47 (a j : ℕ) : (a / 2 ^ 47).testBit j = a.testBit (47 + j) := by
  rw [Nat.testBit_div_two_pow, Nat.add_comm]

/-- **Canonical addresses by their bits.** -/
theorem canonical_iff (a : ℕ) : cfg.Canonical a ↔ cfg.SignExtended a := by
  unfold Canonical SignExtended ADDRESS_WIDTH
  cases hs : cfg.vaSignExt with
  | false =>
      rw [if_neg (by simp)]
      constructor
      · intro ha
        refine ⟨by omega, ?_⟩
        intro i hi _
        rw [Nat.testBit_lt_two_pow (lt_of_lt_of_le ha (Nat.pow_le_pow_right (by omega) hi))]
        rfl
      · rintro ⟨ha, hbits⟩
        apply Nat.lt_pow_two_of_testBit
        intro i hi
        by_cases h64 : i < 64
        · rw [hbits i hi h64]
          rfl
        · exact Nat.testBit_lt_two_pow
            (lt_of_lt_of_le ha (Nat.pow_le_pow_right (by omega) (by omega)))
  | true =>
      rw [if_pos rfl]
      -- the seventeen highest bits are one number, and it is all zeros or all ones
      have hhigh : (∀ i, 48 ≤ i → i < 64 → a.testBit i = (true && a.testBit (48 - 1))) ↔
          ∀ j, j < 17 → (a / 2 ^ 47).testBit j = a.testBit 47 := by
        constructor
        · intro hbits j hj
          rw [testBit_div_two_pow_47]
          rcases Nat.eq_zero_or_pos j with rfl | hpos
          · rfl
          · exact hbits (47 + j) (by omega) (by omega)
        · intro hbits i hi hi'
          have hj := hbits (i - 47) (by omega)
          rw [testBit_div_two_pow_47, show 47 + (i - 47) = i from by omega] at hj
          exact hj
      rw [hhigh]
      constructor
      · rintro (ha | ⟨hlo, hhi⟩)
        · refine ⟨by omega, ?_⟩
          intro j _
          rw [Nat.div_eq_of_lt ha, Nat.zero_testBit, Nat.testBit_lt_two_pow ha]
        · refine ⟨hhi, ?_⟩
          have hdiv : a / 2 ^ 47 = 2 ^ 17 - 1 := by omega
          have hsign : a.testBit 47 = true := by
            rw [← Nat.add_zero 47, ← testBit_div_two_pow_47, hdiv]
            decide
          intro j hj
          rw [hdiv, hsign, Nat.testBit_two_pow_sub_one]
          exact decide_eq_true hj
      · rintro ⟨ha, hbits⟩
        have hdiv := eq_of_testBit_const (by omega : a / 2 ^ 47 < 2 ^ 17) hbits
        cases hb : a.testBit 47 with
        | false =>
            rw [hb, if_neg (by simp)] at hdiv
            exact Or.inl (by omega)
        | true =>
            rw [hb, if_pos rfl] at hdiv
            exact Or.inr ⟨by omega, ha⟩

/-- The index of a canonical address at the top level. -/
theorem pteIndex_four_eq (a : ℕ) : pteIndex a NR_LEVELS = a % 2 ^ 48 / 549755813888 := by
  unfold NR_LEVELS
  rw [pteIndex_eq, pageSize_four]
  omega

/-- **The managed addresses** are those that the table has an entry for. -/
theorem managed_iff_indexed (a : ℕ) : cfg.Managed a ↔ a ∈ cfg.Indexed := by
  constructor
  · intro h
    exact ⟨(cfg.canonical_iff a).mp h.canonical, h.index⟩
  · rintro ⟨hext, hlo, hhi⟩
    have hcan := (cfg.canonical_iff a).mpr hext
    have hle := cfg.index_le
    have hhalf := cfg.index_half
    rw [pteIndex_four_eq] at hlo hhi
    rw [managed_iff]
    unfold Canonical at hcan
    unfold base
    cases hs : cfg.vaSignExt with
    | false =>
        rw [hs, if_neg (by simp)] at hcan
        rw [if_neg (by simp)]
        omega
    | true =>
        rw [hs, if_pos rfl] at hcan
        -- the sign bit of the address is the half of its index
        by_cases h256 : 256 ≤ cfg.topLevelIndexRange.start
        · rw [if_pos ⟨rfl, h256⟩]
          omega
        · rw [if_neg (fun hh => h256 hh.2)]
          omega

/-- The bounds of the managed addresses are managed themselves. -/
theorem vaddrRange_le : cfg.vaddrRange.1 ≤ cfg.vaddrRange.2 := by
  have hlt := cfg.index_lt
  have hfirst : cfg.Managed (cfg.base + cfg.topLevelIndexRange.start * 549755813888) := by
    rw [managed_iff]
    omega
  exact hfirst.1.trans hfirst.2

/-- **Valid ranges.**  `vaddr_range` gives the first and the last address that the table
has an entry for, and `is_valid_range` accepts a range exactly if the table has an entry
for all of its addresses. -/
theorem valid_range_iff_indexed :
    IsLeast cfg.Indexed cfg.vaddrRange.1 ∧ IsGreatest cfg.Indexed cfg.vaddrRange.2 ∧
      ∀ r : AddrRange, r.start < r.stop → r.stop < 2 ^ 64 →
        (cfg.isValidRange r = true ↔ ∀ a, r.Contains a → a ∈ cfg.Indexed) := by
  have hle := cfg.vaddrRange_le
  refine ⟨⟨?_, ?_⟩, ⟨?_, ?_⟩, ?_⟩
  · rw [← managed_iff_indexed]
    exact ⟨le_rfl, hle⟩
  · intro a ha
    exact ((cfg.managed_iff_indexed a).mpr ha).1
  · rw [← managed_iff_indexed]
    exact ⟨hle, le_rfl⟩
  · intro a ha
    exact ((cfg.managed_iff_indexed a).mpr ha).2
  · intro r hne _
    constructor
    · intro h a ha
      exact (cfg.managed_iff_indexed a).mp ((managed_of_isValidRange h).2 a ha)
    · intro h
      have hfirst := (cfg.managed_iff_indexed _).mpr (h r.start ⟨le_rfl, hne⟩)
      have hlast := (cfg.managed_iff_indexed _).mpr (h (r.stop - 1) ⟨by omega, by omega⟩)
      unfold isValidRange
      simp only [Bool.and_eq_true, decide_eq_true_eq]
      exact ⟨hne, hfirst.1, hlast.2⟩

/-- A page of a table for the upper half. -/
theorem valid_range_iff_indexed_sample : ∃ cfg : PageTableConfig Unit,
    cfg.topLevelIndexRange = ⟨256, 512⟩ ∧
      ∀ a, 2 ^ 64 - 8192 ≤ a → a < 2 ^ 64 - 4096 → a ∈ cfg.Indexed := by
  let cfg : PageTableConfig Unit :=
    ⟨⟨256, 512⟩, false, 1, true, 4, fun _ => false, by decide, by decide, by decide, by decide⟩
  refine ⟨cfg, rfl, ?_⟩
  intro a hlo hhi
  exact (cfg.valid_range_iff_indexed.2.2 ⟨2 ^ 64 - 8192, 2 ^ 64 - 4096⟩ (by decide)
    (by decide)).mp (by decide) a ⟨hlo, hhi⟩

end PageTableConfig

end Vostd
