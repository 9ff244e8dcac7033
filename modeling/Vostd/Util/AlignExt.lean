/-
# Rounding to powers of two

`AlignExt` of `libs/align_ext`: the next multiple of a power of two.  The code adds
`align - 1` and clears the low bits; for a power of two this is a division.
-/
import Vostd.PageTable.Config

namespace Vostd

open Exec

/-- `a.checked_add(b)` -/
def checkedAdd (a b : ℕ) : Option ℕ := if a + b < 2 ^ 64 then some (a + b) else none

/-- `AlignExt::align_up` for a power of two. -/
-- irreducible: Lean would add up `PAGE_SIZE - 1` one by one when it looks into a goal
@[irreducible] def alignUp (a n : ℕ) : Exec ℕ := do
  let sum ← Exec.unwrap (checkedAdd a (n - 1))
  .ok (alignDown sum n)

/-- `usize::is_power_of_two` -/
def isPowerOfTwo (n : ℕ) : Bool := n ≠ 0 && n &&& (n - 1) == 0

/-- `AlignExt::align_up`, with its assertion. -/
def AlignExt.alignUp (a align : ℕ) : Exec ℕ := do
  Exec.check (isPowerOfTwo align = true ∧ align ≥ 2)
  Vostd.alignUp a align

/-- The number rounded up to a multiple of `n`; `0` and `1` stand for no rounding. -/
def roundUpTo (a n : ℕ) : ℕ := if n ≤ 1 then a else alignDown (a + (n - 1)) n

section

variable {a n : ℕ} {A : Fault → Prop}

theorem isPowerOfTwo_pow (e : ℕ) : isPowerOfTwo (2 ^ e) = true := by
  unfold isPowerOfTwo
  rw [Nat.and_two_pow_sub_one_eq_mod, Nat.mod_self]
  simp

theorem le_roundUpTo (a n : ℕ) : a ≤ roundUpTo a n := by
  unfold roundUpTo
  split_ifs with hn
  · exact le_refl a
  · have hlt := lt_alignDown_add (n := n) (a + (n - 1)) (by omega)
    omega

theorem roundUpTo_le (a n : ℕ) : roundUpTo a n ≤ a + (n - 1) := by
  unfold roundUpTo
  split_ifs with hn
  · exact Nat.le_add_right _ _
  · exact alignDown_le _ _

theorem dvd_roundUpTo (a : ℕ) (hn : 1 ≤ n) : n ∣ roundUpTo a n := by
  unfold roundUpTo
  split_ifs with h
  · obtain rfl : n = 1 := by omega
    exact one_dvd a
  · exact dvd_alignDown _ _

/-- **`align_up`** rounds up. -/
theorem post_alignUpTo {e : ℕ} (hn : n = 2 ^ e) (hge : 2 ≤ n) (hfit : a + (n - 1) < 2 ^ 64) :
    Post A (AlignExt.alignUp a n) (fun b => b = roundUpTo a n) := by
  unfold AlignExt.alignUp
  apply (post_check (p := isPowerOfTwo n = true ∧ n ≥ 2) ?_).bind
  · intro _ _
    unfold Vostd.alignUp checkedAdd
    rw [if_pos hfit]
    show alignDown (a + (n - 1)) n = roundUpTo a n
    unfold roundUpTo
    rw [if_neg (by omega)]
  · intro hnot
    refine absurd ⟨?_, hge⟩ hnot
    rw [hn]
    exact isPowerOfTwo_pow e

theorem alignUpTo_eq {e : ℕ} (hn : n = 2 ^ e) (hge : 2 ≤ n) (hfit : a + (n - 1) < 2 ^ 64) :
    AlignExt.alignUp a n = .ok (roundUpTo a n) := by
  obtain ⟨b, hb, rfl⟩ := (post_alignUpTo hn hge hfit).exists_ok
  exact hb

/-- Rounding up what lies behind a multiple stays below a rounded end. -/
theorem add_roundUpTo_le {m len : ℕ} (hn : 1 ≤ n) (ha : n ∣ a) (h : a + m ≤ len) :
    a + roundUpTo m n ≤ roundUpTo len n := by
  obtain ⟨x, hx⟩ := ha.add (dvd_roundUpTo m hn)
  obtain ⟨y, hy⟩ := dvd_roundUpTo len hn
  have hm := roundUpTo_le m n
  have hlen := le_roundUpTo len n
  have hlt : n * x < n * (y + 1) := by
    rw [Nat.mul_add, Nat.mul_one]
    omega
  have hxy : x ≤ y := Nat.lt_succ_iff.mp (Nat.lt_of_mul_lt_mul_left hlt)
  rw [hx, hy]
  exact Nat.mul_le_mul_left n hxy

end

end Vostd
