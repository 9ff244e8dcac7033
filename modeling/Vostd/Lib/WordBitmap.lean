/-
# Bitmaps in machine words

A set of numbers kept in a list of words of `w` bits: number `i` is bit `i % w` of word
`i / w`.  `bitAt` reads a bit, wherever it lies, and the lemmas below say which bits the
usual word operations change: setting and clearing one bit of a word, masking a word,
filling all words, extending the list.  The summaries are statements about the bits
again: all words zero, the sum of the population counts, equality of lists.
-/
import Vostd.Lib.BitFields

namespace Vostd

variable {w : ℕ}

/-! ## Single words -/

theorem getLsbD_one_shiftLeft {j : ℕ} (hj : j < w) (i : ℕ) :
    ((1#w) <<< j).getLsbD i = decide (i = j) := by
  rw [← BitVec.twoPow_eq, BitVec.getLsbD_twoPow]
  simp [hj, eq_comm]

theorem toNat_one_shiftLeft {j : ℕ} (hj : j < w) : ((1#w) <<< j).toNat = 2 ^ j := by
  rw [← BitVec.twoPow_eq, BitVec.toNat_twoPow_of_lt hj]

/-- The mask of the low bits. -/
theorem getLsbD_lowMask {j : ℕ} (hj : j < w) (i : ℕ) :
    ((1#w) <<< j - 1#w).getLsbD i = decide (i < j) := by
  have hw : 1 < 2 ^ w := Nat.one_lt_two_pow (by omega)
  have hnat : ((1#w) <<< j - 1#w).toNat = 2 ^ j - 1 := by
    have hshift := toNat_one_shiftLeft hj
    have hone : (1#w).toNat = 1 := by
      rw [BitVec.toNat_ofNat, Nat.mod_eq_of_lt hw]
    rw [BitVec.toNat_sub_of_le, hshift, hone]
    rw [BitVec.le_def, hshift, hone]
    exact Nat.one_le_two_pow
  rw [← BitVec.testBit_toNat, hnat, Nat.testBit_two_pow_sub_one]

/-- The bit test of the code. -/
theorem and_one_shiftLeft_ne_zero {j : ℕ} (hj : j < w) (v : BitVec w) :
    v &&& (1#w) <<< j ≠ 0#w ↔ v.getLsbD j = true := by
  rw [← BitVec.twoPow_eq]
  exact and_twoPow_ne_zero hj

/-- What a mask of one bit leaves. -/
theorem and_one_shiftLeft {j : ℕ} (hj : j < w) (v : BitVec w) :
    v &&& (1#w) <<< j = if v.getLsbD j then (1#w) <<< j else 0#w := by
  by_cases hbit : v.getLsbD j = true
  · rw [if_pos hbit]
    apply BitVec.eq_of_getLsbD_eq
    intro i _
    rw [BitVec.getLsbD_and, getLsbD_one_shiftLeft hj]
    by_cases h : i = j
    · subst h
      simp [hbit]
    · simp [h]
  · rw [if_neg hbit]
    by_contra hne
    exact hbit ((and_one_shiftLeft_ne_zero hj v).mp hne)

/-- Setting a bit that is set. -/
theorem or_one_shiftLeft_of_set {j : ℕ} (hj : j < w) {v : BitVec w} (h : v.getLsbD j = true) :
    v ||| (1#w) <<< j = v := by
  apply BitVec.eq_of_getLsbD_eq
  intro i _
  rw [BitVec.getLsbD_or, getLsbD_one_shiftLeft hj]
  by_cases hi : i = j
  · subst hi
    simp [h]
  · simp [hi]

/-- Setting a bit that is not set adds its value. -/
theorem toNat_or_one_shiftLeft {j : ℕ} (hj : j < w) {v : BitVec w} (h : v.getLsbD j = false) :
    (v ||| (1#w) <<< j).toNat = v.toNat + 2 ^ j := by
  have hand : v &&& (1#w) <<< j = 0#w := by
    rw [and_one_shiftLeft hj, h]
    rfl
  rw [← BitVec.add_eq_or_of_and_eq_zero _ _ hand, BitVec.toNat_add_of_and_eq_zero hand,
    toNat_one_shiftLeft hj]

/-- Clearing a bit that is set subtracts its value. -/
theorem toNat_andNot_one_shiftLeft {j : ℕ} (hj : j < w) {v : BitVec w} (h : v.getLsbD j = true) :
    (v &&& ~~~((1#w) <<< j)).toNat + 2 ^ j = v.toNat := by
  have hunset : (v &&& ~~~((1#w) <<< j)).getLsbD j = false := by
    rw [BitVec.getLsbD_and, BitVec.getLsbD_not, getLsbD_one_shiftLeft hj]
    simp
  have hback : (v &&& ~~~((1#w) <<< j)) ||| (1#w) <<< j = v := by
    apply BitVec.eq_of_getLsbD_eq
    intro i hi
    rw [BitVec.getLsbD_or, BitVec.getLsbD_and, BitVec.getLsbD_not, getLsbD_one_shiftLeft hj]
    by_cases hij : i = j
    · subst hij
      simp [h]
    · simp [hij, hi]
  rw [← toNat_or_one_shiftLeft hj hunset, hback]

/-- Clearing a bit that is not set. -/
theorem andNot_one_shiftLeft_of_unset {j : ℕ} (hj : j < w) {v : BitVec w}
    (h : v.getLsbD j = false) : v &&& ~~~((1#w) <<< j) = v := by
  apply BitVec.eq_of_getLsbD_eq
  intro i hi
  rw [BitVec.getLsbD_and, BitVec.getLsbD_not, getLsbD_one_shiftLeft hj]
  by_cases hij : i = j
  · subst hij
    simp [h]
  · simp [hij, hi]

/-- A bit as a digit. -/
theorem getLsbD_eq_decide (v : BitVec w) (j : ℕ) :
    v.getLsbD j = decide (v.toNat / 2 ^ j % 2 = 1) := by
  rw [← BitVec.testBit_toNat, Nat.testBit_eq_decide_div_mod_eq]

/-- The population count counts the bits. -/
theorem toNat_cpop_eq_countP (v : BitVec w) :
    v.cpop.toNat = (List.range w).countP (fun i => v.getLsbD i) := by
  have hrec : ∀ k, v.cpopNatRec k 0 = (List.range k).countP (fun i => v.getLsbD i) := by
    intro k
    induction k with
    | zero => rfl
    | succ k ih =>
        rw [BitVec.cpopNatRec_succ, BitVec.cpopNatRec_add, ih, List.range_succ, List.countP_append]
        cases h : v.getLsbD k <;> simp [h]
  rw [BitVec.toNat_cpop, hrec]

/-! ## Lists of words -/

/-- Bit `i` of a list of words; there are no bits behind the last word. -/
def bitAt (ws : List (BitVec w)) (i : ℕ) : Bool := (ws.getD (i / w) 0#w).getLsbD (i % w)

section

variable {ws vs : List (BitVec w)} {v : BitVec w} {i n : ℕ}

theorem bitAt_of_getElem? (h : ws[i / w]? = some v) :
    bitAt ws i = v.getLsbD (i % w) := by
  rw [bitAt, List.getD_eq_getElem?_getD, h]
  rfl

/-- The bits of a word. -/
theorem bitAt_mul_add {k j : ℕ} (h : ws[k]? = some v) (hj : j < w) :
    bitAt ws (k * w + j) = v.getLsbD j := by
  have hdiv : (k * w + j) / w = k := by
    rw [Nat.mul_comm, Nat.mul_add_div (by omega), Nat.div_eq_of_lt hj, add_zero]
  have hmod : (k * w + j) % w = j := by
    rw [Nat.mul_comm, Nat.mul_add_mod, Nat.mod_eq_of_lt hj]
  rw [bitAt_of_getElem? (by rw [hdiv]; exact h), hmod]

theorem bitAt_of_le (hw : 0 < w) (h : ws.length * w ≤ i) : bitAt ws i = false := by
  have hi : ws.length ≤ i / w := (Nat.le_div_iff_mul_le hw).mpr h
  rw [bitAt, List.getD_eq_default _ _ hi, BitVec.getLsbD_zero]

theorem div_lt_length (h : i < ws.length * w) : i / w < ws.length :=
  Nat.div_lt_of_lt_mul (by rwa [Nat.mul_comm])

/-- The first word, and the rest. -/
theorem bitAt_cons_lt (h : i < w) : bitAt (v :: ws) i = v.getLsbD i := by
  rw [bitAt, Nat.div_eq_of_lt h, Nat.mod_eq_of_lt h]
  rfl

theorem bitAt_cons_add (hw : 0 < w) (i : ℕ) :
    bitAt (v :: ws) (w + i) = bitAt ws i := by
  rw [bitAt, Nat.add_div_left _ hw, Nat.add_mod_left]
  rfl

theorem bitAt_set {k : ℕ} (hk : k < ws.length) (v : BitVec w) (i : ℕ) :
    bitAt (ws.set k v) i = if i / w = k then v.getLsbD (i % w) else bitAt ws i := by
  rw [bitAt, List.getD_eq_getElem?_getD]
  by_cases h : i / w = k
  · subst h
    rw [if_pos rfl, List.getElem?_set_self hk]
    rfl
  · rw [if_neg h, List.getElem?_set_ne (fun hk => h hk.symm), bitAt, List.getD_eq_getElem?_getD]

/-- All words alike. -/
theorem bitAt_replicate (hw : 0 < w) (k : ℕ) (v : BitVec w) (i : ℕ) :
    bitAt (List.replicate k v) i = (decide (i < k * w) && v.getLsbD (i % w)) := by
  by_cases h : i < k * w
  · have hi : i / w < k := Nat.div_lt_of_lt_mul (by rwa [Nat.mul_comm])
    rw [bitAt_of_getElem? (List.getElem?_eq_some_iff.mpr
      ⟨by rwa [List.length_replicate], List.getElem_replicate _⟩)]
    simp [h]
  · rw [bitAt_of_le hw (by rw [List.length_replicate]; exact not_lt.mp h)]
    simp [h]

/-- Words of zeros at the end change nothing. -/
theorem bitAt_append_zero (k i : ℕ) : bitAt (ws ++ List.replicate k 0#w) i = bitAt ws i := by
  rw [bitAt, bitAt, List.getD_eq_getElem?_getD, List.getD_eq_getElem?_getD, List.getElem?_append]
  by_cases h : i / w < ws.length
  · rw [if_pos h]
  · rw [if_neg h, List.getElem?_eq_none (not_lt.mp h), List.getElem?_replicate]
    by_cases hk : i / w - ws.length < k
    · rw [if_pos hk]
      rfl
    · rw [if_neg hk]

/-- Within a word, the bit tells the number. -/
theorem mod_eq_iff_of_div_eq (h : i / w = n / w) : i % w = n % w ↔ i = n := by
  constructor
  · intro hmod
    rw [← Nat.div_add_mod i w, h, hmod, Nat.div_add_mod]
  · rintro rfl
    rfl

/-- Setting bit `n`. -/
theorem bitAt_set_or (hw : 0 < w) (hv : ws[n / w]? = some v) (i : ℕ) :
    bitAt (ws.set (n / w) (v ||| (1#w) <<< (n % w))) i = (bitAt ws i || decide (i = n)) := by
  rw [bitAt_set (List.getElem?_eq_some_iff.mp hv).1]
  by_cases h : i / w = n / w
  · rw [if_pos h, BitVec.getLsbD_or, getLsbD_one_shiftLeft (Nat.mod_lt _ hw),
      bitAt_of_getElem? (h ▸ hv)]
    congr 1
    exact decide_eq_decide.mpr (mod_eq_iff_of_div_eq h)
  · rw [if_neg h]
    have hne : ¬i = n := fun hin => h (by rw [hin])
    simp [hne]

/-- Clearing bit `n`. -/
theorem bitAt_set_andNot (hw : 0 < w) (hv : ws[n / w]? = some v) (i : ℕ) :
    bitAt (ws.set (n / w) (v &&& ~~~((1#w) <<< (n % w)))) i = (bitAt ws i && !decide (i = n)) := by
  rw [bitAt_set (List.getElem?_eq_some_iff.mp hv).1]
  by_cases h : i / w = n / w
  · rw [if_pos h, BitVec.getLsbD_and, BitVec.getLsbD_not, getLsbD_one_shiftLeft (Nat.mod_lt _ hw),
      bitAt_of_getElem? (h ▸ hv), decide_eq_true (Nat.mod_lt i hw), Bool.true_and]
    congr 2
    exact decide_eq_decide.mpr (mod_eq_iff_of_div_eq h)
  · rw [if_neg h]
    have hne : ¬i = n := fun hin => h (by rw [hin])
    simp [hne]

/-- Lists of one length with the same bits are equal. -/
theorem eq_of_bitAt (hlen : ws.length = vs.length)
    (h : ∀ i, i < ws.length * w → bitAt ws i = bitAt vs i) : ws = vs := by
  apply List.ext_getElem hlen
  intro k hk hk'
  apply BitVec.eq_of_getLsbD_eq
  intro j hj
  have hlt : k * w + j < ws.length * w := by
    calc k * w + j < k * w + w := by omega
      _ = (k + 1) * w := by ring
      _ ≤ ws.length * w := Nat.mul_le_mul_right w hk
  have hbit := h (k * w + j) hlt
  rwa [bitAt_mul_add (List.getElem?_eq_getElem hk) hj,
    bitAt_mul_add (List.getElem?_eq_getElem hk') hj] at hbit

/-- The words are all zero exactly when no bit is set. -/
theorem all_zero_iff (hw : 0 < w) : (∀ v ∈ ws, v = 0#w) ↔ ∀ i, bitAt ws i = false := by
  constructor
  · intro h i
    rw [List.eq_replicate_of_mem h, bitAt_replicate hw, BitVec.getLsbD_zero, Bool.and_false]
  · intro h
    have hzero : ws = List.replicate ws.length 0#w := by
      apply eq_of_bitAt (List.length_replicate).symm
      intro i _
      rw [h i, bitAt_replicate hw, BitVec.getLsbD_zero, Bool.and_false]
    intro v hv
    rw [hzero] at hv
    exact List.eq_of_mem_replicate hv

/-- **The population count of the list.** -/
theorem sum_cpop_eq_countP (hw : 0 < w) (ws : List (BitVec w)) :
    (ws.map (fun v => v.cpop.toNat)).sum = (List.range (ws.length * w)).countP (bitAt ws) := by
  induction ws with
  | nil => simp
  | cons v ws ih =>
      rw [List.map_cons, List.sum_cons, ih, List.length_cons,
        show (ws.length + 1) * w = w + ws.length * w from by ring, List.range_add,
        List.countP_append, List.countP_map, toNat_cpop_eq_countP]
      congr 1
      · apply List.countP_congr
        intro i hi
        rw [bitAt_cons_lt (List.mem_range.mp hi)]
      · apply List.countP_congr
        intro i _
        rw [Function.comp_apply, bitAt_cons_add hw]

end

end Vostd
