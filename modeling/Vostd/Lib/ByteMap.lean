/-
# Partial maps on addresses

A `ByteMap α` gives each address a value or nothing.  The two ways to change one
are to override it on an interval and to erase an interval.
-/
import Mathlib

namespace Vostd

/-- A partial map on addresses. -/
def ByteMap (α : Type) : Type := ℕ → Option α

namespace ByteMap

variable {α : Type}

/-- The map `T` with the values of `f` on `[lo, hi)`. -/
def override (T : ByteMap α) (lo hi : ℕ) (f : ℕ → Option α) : ByteMap α :=
  fun a => if lo ≤ a ∧ a < hi then f a else T a

/-- The map `T` without `[lo, hi)`. -/
def erase (T : ByteMap α) (lo hi : ℕ) : ByteMap α := T.override lo hi (fun _ => none)

/-- `T` has no value in `[lo, hi)`. -/
def Unmapped (T : ByteMap α) (lo hi : ℕ) : Prop := ∀ a, lo ≤ a → a < hi → T a = none

theorem override_of_mem (T : ByteMap α) {lo hi a : ℕ} (f : ℕ → Option α) (h : lo ≤ a ∧ a < hi) :
    T.override lo hi f a = f a := if_pos h

theorem override_of_not_mem (T : ByteMap α) {lo hi a : ℕ} (f : ℕ → Option α)
    (h : ¬(lo ≤ a ∧ a < hi)) : T.override lo hi f a = T a := if_neg h

theorem Unmapped.mono {T : ByteMap α} {a b a' b' : ℕ} (h : T.Unmapped a b) (ha : a ≤ a')
    (hb : b' ≤ b) : T.Unmapped a' b' :=
  fun x hx hx' => h x (ha.trans hx) (lt_of_lt_of_le hx' hb)

/-- Erasing what is not there changes nothing. -/
theorem erase_of_unmapped {T : ByteMap α} {lo hi : ℕ} (h : T.Unmapped lo hi) :
    T.erase lo hi = T := by
  funext a
  by_cases ha : lo ≤ a ∧ a < hi
  · rw [erase, override_of_mem _ _ ha, h a ha.1 ha.2]
  · rw [erase, override_of_not_mem _ _ ha]

/-- Adjacent erased stretches. -/
theorem erase_erase (T : ByteMap α) {a b c : ℕ} (hab : a ≤ b) (hbc : b ≤ c) :
    (T.erase a b).erase b c = T.erase a c := by
  funext x
  unfold erase override
  split_ifs <;> first | rfl | omega

/-! ## Counting pages -/

/-- Of the `n` pages of `ps` bytes from `lo` on, the number of those that are mapped. -/
def mappedPages (ps : ℕ) (T : ByteMap α) (lo n : ℕ) : ℕ :=
  ((Finset.range n).filter (fun j => (T (lo + j * ps)).isSome)).card

variable {ps : ℕ} {T T' : ByteMap α}

theorem mappedPages_le (lo n : ℕ) : T.mappedPages ps lo n ≤ n := by
  unfold mappedPages
  exact (Finset.card_filter_le _ _).trans_eq (Finset.card_range n)

/-- The count is additive in the interval. -/
theorem mappedPages_add (lo a b : ℕ) : T.mappedPages ps lo (a + b) =
    T.mappedPages ps lo a + T.mappedPages ps (lo + a * ps) b := by
  unfold mappedPages
  simp only [Finset.card_filter]
  rw [Finset.sum_range_add]
  congr 1
  refine Finset.sum_congr rfl ?_
  intro j _
  rw [Nat.add_mul, Nat.add_assoc]

/-- The count of an interval in equal pieces. -/
theorem mappedPages_mul (lo a b : ℕ) : T.mappedPages ps lo (a * b) =
    ∑ i ∈ Finset.range a, T.mappedPages ps (lo + i * (b * ps)) b := by
  induction a with
  | zero => simp [mappedPages]
  | succ a ih =>
      rw [Nat.add_mul, Nat.one_mul, mappedPages_add, ih, Finset.sum_range_succ, Nat.mul_assoc]

/-- The count depends on the starts of the pages. -/
theorem mappedPages_congr {lo n : ℕ}
    (h : ∀ j, j < n → (T (lo + j * ps)).isSome = (T' (lo + j * ps)).isSome) :
    T.mappedPages ps lo n = T'.mappedPages ps lo n := by
  unfold mappedPages
  congr 1
  apply Finset.filter_congr
  intro j hj
  rw [h j (Finset.mem_range.mp hj)]

theorem mappedPages_unmapped {lo n : ℕ} (h : T.Unmapped lo (lo + n * ps)) (hps : 0 < ps) :
    T.mappedPages ps lo n = 0 := by
  unfold mappedPages
  rw [Finset.card_eq_zero, Finset.filter_eq_empty_iff]
  intro j hj
  have hlt : j * ps < n * ps := (Nat.mul_lt_mul_right hps).mpr (Finset.mem_range.mp hj)
  rw [h (lo + j * ps) (by omega) (by omega)]
  simp

end ByteMap

end Vostd
