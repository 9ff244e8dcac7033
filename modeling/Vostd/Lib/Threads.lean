/-
# Sums over threads

A program with threads is described by one local state for each thread.  What all
threads together hold or owe is a sum over the threads (`total`), and a step of one
thread changes the sum by what it changes in the summand of that thread
(`exists_total_eq`).
-/
import Mathlib

namespace Vostd

variable {ι T M : Type*} [Fintype ι] [AddCommMonoid M]

/-- The sum of `f` over the threads. -/
def total (f : T → M) (ts : ι → T) : M := ∑ i, f (ts i)

theorem total_eq_zero {f : T → M} {ts : ι → T} (h : ∀ i, f (ts i) = 0) : total f ts = 0 :=
  Finset.sum_eq_zero (fun i _ => h i)

/-- A sum of numbers that is not zero has a summand that is not zero. -/
theorem exists_of_total_ne_zero {f : T → ℕ} {ts : ι → T} (h : total f ts ≠ 0) :
    ∃ i, f (ts i) ≠ 0 := by
  obtain ⟨i, -, hi⟩ := Finset.exists_ne_zero_of_sum_ne_zero h
  exact ⟨i, hi⟩

theorem apply_le_total (f : T → ℕ) (ts : ι → T) (i : ι) : f (ts i) ≤ total f ts := by
  unfold total
  exact Finset.single_le_sum (f := fun j => f (ts j)) (fun _ _ => Nat.zero_le _)
    (Finset.mem_univ i)

variable [DecidableEq ι]

/-- A sum whose summands depend on the thread, too. -/
theorem exists_sum_eq (f : ι → T → M) (ts : ι → T) (i : ι) :
    ∃ d, ∑ j, f j (ts j) = d + f i (ts i) ∧
      ∀ t, ∑ j, f j (Function.update ts i t j) = d + f i t := by
  refine ⟨∑ j ∈ Finset.univ.erase i, f j (ts j), ?_, ?_⟩
  · exact (Finset.sum_erase_add _ _ (Finset.mem_univ i)).symm
  · intro t
    rw [← Finset.sum_erase_add _ _ (Finset.mem_univ i), Function.update_self]
    congr 1
    apply Finset.sum_congr rfl
    intro j hj
    rw [Function.update_of_ne (Finset.ne_of_mem_erase hj)]

/-- The share of the other threads does not depend on the state of a thread. -/
theorem exists_total_eq (f : T → M) (ts : ι → T) (i : ι) :
    ∃ d, total f ts = d + f (ts i) ∧ ∀ t, total f (Function.update ts i t) = d + f t :=
  exists_sum_eq (fun _ => f) ts i

end Vostd
