/-
# Words made of fields

A word holds an address field and single-bit flags.  A flag is moved from one layout to
another by masking it out and shifting it (`parseFlags`), and what such a move does is a
statement about single bits (`getLsbD_parseFlags`).  Words are compared bit by bit, so the
lemmas here are about `getLsbD`.
-/
import Mathlib

namespace Vostd

section

variable {u v w : ℕ} {i k : ℕ} {x m b f : BitVec w}

/-- `parse_flags!`: the flag `from` of `val`, moved to the place of the flag `to`. -/
def parseFlags (val : BitVec u) (src : BitVec v) (dst : BitVec w) : BitVec 64 :=
  (val.setWidth 64 &&& src.setWidth 64) >>> src.toNat.log2 <<< dst.toNat.log2

theorem log2_toNat_twoPow (h : i < w) : (BitVec.twoPow w i).toNat.log2 = i := by
  rw [BitVec.toNat_twoPow_of_lt h, Nat.log2_two_pow]

/-- **One flag is moved.** -/
theorem getLsbD_parseFlags (val : BitVec u) {j : ℕ} (hi : i < v) (hv : v ≤ 64) (hj : j < w)
    (hw : w ≤ 64) (k : ℕ) :
    (parseFlags val (BitVec.twoPow v i) (BitVec.twoPow w j)).getLsbD k =
      (decide (k = j) && val.getLsbD i) := by
  unfold parseFlags
  rw [log2_toNat_twoPow hi, log2_toNat_twoPow hj]
  simp only [BitVec.getLsbD_shiftLeft, BitVec.getLsbD_ushiftRight, BitVec.getLsbD_and,
    BitVec.getLsbD_setWidth, BitVec.getLsbD_twoPow]
  by_cases hk : k = j
  · subst hk
    have hk64 : k < 64 := by omega
    have hi64 : i < 64 := by omega
    simp [hk64, hi64, hi]
  · by_cases hlt : k < j
    · simp [hk, hlt]
    · have hne : ¬k - j = 0 := by omega
      simp [hk, hne]

/-- A bit that two words have in common. -/
theorem and_ne_zero_of_getLsbD (hx : x.getLsbD k = true)
    (hm : m.getLsbD k = true) : x &&& m ≠ 0 := by
  intro hzero
  have hbit : (x &&& m).getLsbD k = (0 : BitVec w).getLsbD k := by rw [hzero]
  rw [BitVec.getLsbD_and, hx, hm] at hbit
  simp at hbit

/-- A flag of a word is set. -/
theorem and_twoPow_ne_zero (hi : i < w) :
    x &&& BitVec.twoPow w i ≠ 0 ↔ x.getLsbD i = true := by
  constructor
  · intro hne
    by_contra h
    apply hne
    apply BitVec.eq_of_getLsbD_eq
    intro k hk
    by_cases hik : i = k
    · subst hik
      simp [Bool.eq_false_iff.mpr h]
    · simp [BitVec.getLsbD_and, BitVec.getLsbD_twoPow, hik]
  · intro h
    apply and_ne_zero_of_getLsbD h
    rw [BitVec.getLsbD_twoPow]
    simp [hi]

/-- The same of a flag that stands for a property. -/
theorem and_twoPow_ne_zero_iff (hi : i < w) {p : Prop} [Decidable p]
    (h : x.getLsbD i = decide p) : x &&& BitVec.twoPow w i ≠ 0 ↔ p := by
  rw [and_twoPow_ne_zero hi, h, decide_eq_true_iff]

/-- Next to a field are the other bits. -/
theorem getLsbD_or_of_field (hb : b &&& m = b) (hk : m.getLsbD k = false) :
    (b ||| f).getLsbD k = f.getLsbD k := by
  rw [← hb, BitVec.getLsbD_or, BitVec.getLsbD_and, hk, Bool.and_false, Bool.false_or]

/-- A field is kept and what is next to it is dropped. -/
theorem or_and_of_disjoint (hb : b &&& m = b) (hf : f &&& m = 0) :
    (b ||| f) &&& m = b := by
  rw [BitVec.and_comm, BitVec.and_or_distrib_left, BitVec.and_comm m, BitVec.and_comm m, hb, hf]
  exact BitVec.or_zero

/-- A word whose bits are not among those of a mask. -/
theorem and_eq_zero_of_forall
    (h : ∀ k, f.getLsbD k = true → m.getLsbD k = false) : f &&& m = 0 := by
  apply BitVec.eq_of_getLsbD_eq
  intro k hk
  rw [BitVec.getLsbD_and]
  cases hf : f.getLsbD k with
  | false => simp
  | true => simp [h k hf]

/-- A word whose bits are among those of a mask. -/
theorem and_eq_self_of_forall (h : ∀ k, b.getLsbD k = true → m.getLsbD k = true) : b &&& m = b := by
  apply BitVec.eq_of_getLsbD_eq
  intro k hk
  rw [BitVec.getLsbD_and]
  cases hb : b.getLsbD k with
  | false => rfl
  | true => rw [h k hb, Bool.and_true]

/-- The bits of an aligned number below a power of two. -/
theorem getLsbD_of_dvd_of_lt {m n : ℕ} (hdvd : 2 ^ m ∣ x.toNat)
    (hlt : x.toNat < 2 ^ n) (h : x.getLsbD k = true) : m ≤ k ∧ k < n := by
  rw [BitVec.getLsbD, Nat.testBit_eq_decide_div_mod_eq, decide_eq_true_iff] at h
  constructor
  · by_contra hk
    obtain ⟨c, hc⟩ := (pow_dvd_pow 2 (show k + 1 ≤ m by omega)).trans hdvd
    rw [hc, pow_succ, mul_assoc, Nat.mul_div_cancel_left _ (by positivity)] at h
    omega
  · by_contra hk
    have hle : 2 ^ n ≤ 2 ^ k := Nat.pow_le_pow_right (by norm_num) (by omega)
    rw [Nat.div_eq_of_lt (by omega)] at h
    omega

end

end Vostd
