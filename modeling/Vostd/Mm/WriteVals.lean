/-
# Writing a sequence of values

`VmIo::write_vals` of `mm/io.rs` writes the values of an iterator one behind the other, each at
a multiple of the alignment.  It stops at the end of the iterator, at the first write that
fails, and before a write after which the next offset would not be a `usize`.

The object is any object of `n` bytes whose `write_val` is all-or-nothing (`AllOrNothing`).
All three exits together come to one number of values (`leading`, `Goes`).
-/
import Vostd.Util.AlignExt

namespace Vostd

open Exec

namespace VmIo

/-! ## The code -/

/-- `usize::MAX` -/
def usizeMax : ℕ := 2 ^ 64 - 1

/-- `VmIo` for objects with states `S`, values `T` and errors `E`. -/
structure Io (S T E : Type) where
  writeVal : S → ℕ → T → Except E Unit × S

section

variable {S T E : Type} (io : Io S T E)

/-- The loop of `write_vals`. -/
def writeLoop (itemSize : ℕ) : List T → S → ℕ → ℕ → Except E ℕ × S
  | [], s, _, nrWritten => (.ok nrWritten, s)
  | item :: iter, s, offset, nrWritten =>
      if nrWritten = usizeMax ∨ (itemSize > 0 ∧ offset > usizeMax - itemSize) then
        (.ok nrWritten, s)
      else
        match io.writeVal s offset item with
        | (.ok _, s) => writeLoop itemSize iter s (offset + itemSize) (nrWritten + 1)
        | (.error e, s) => if nrWritten > 0 then (.ok nrWritten, s) else (.error e, s)

/-- `write_vals`; `sizeOf` is `size_of::<T>()`. -/
def writeVals (sizeOf : ℕ) (s : S) (offset : ℕ) (iter : List T) (align : ℕ) :
    Exec (Except E ℕ × S) := do
  let (offset, itemSize) ←
    if align ≤ 1 then .ok (offset, sizeOf)
    else do
      let offset ← AlignExt.alignUp offset align
      let itemSize ← AlignExt.alignUp sizeOf align
      .ok (offset, itemSize)
  .ok (writeLoop io itemSize iter s offset 0)

end

/-! ## What it is for -/

section

variable {S T E : Type} {n : ℕ}

/-- The bytes after `size` bytes are written at the offset. -/
def overwrite (mem : Fin n → UInt8) (offset size : ℕ) (val : ℕ → UInt8) : Fin n → UInt8 :=
  fun q => if offset ≤ q ∧ q < offset + size then val (q - offset) else mem q

/-- `write_val` writes all bytes of the value when they fit, and else nothing. -/
structure AllOrNothing (io : Io S T E) (view : S → Fin n → UInt8) (sizeOf : ℕ)
    (bytes : T → ℕ → UInt8) : Prop where
  fits : ∀ s offset v, offset + sizeOf ≤ n →
    ∃ s', io.writeVal s offset v = (.ok (), s') ∧
      view s' = overwrite (view s) offset sizeOf (bytes v)
  fails : ∀ s offset v, n < offset + sizeOf → ∃ e, io.writeVal s offset v = (.error e, s)

/-- The number of leading indices below `k` with a property. -/
def leading (k : ℕ) (p : ℕ → Bool) : ℕ := ((List.range k).takeWhile p).length

/-- Whether the value `i` is written: it fits in the object, and the offset behind it is a
`usize`. -/
def Goes (n sizeOf base step : ℕ) (i : ℕ) : Bool :=
  decide (base + i * step + sizeOf ≤ n ∧ base + (i + 1) * step ≤ usizeMax)

/-- The bytes `mem'` are the bytes `mem` with the first `m` values written in steps. -/
structure Written (bytes : T → ℕ → UInt8) (sizeOf base step : ℕ) (vals : List T) (m : ℕ)
    (mem mem' : Fin n → UInt8) : Prop where
  values : ∀ i < m, ∀ v, vals[i]? = some v → ∀ q : Fin n, ∀ j < sizeOf,
    (q : ℕ) = base + i * step + j → mem' q = bytes v j
  others : ∀ q : Fin n, (∀ i < m, ¬(base + i * step ≤ q ∧ q < base + i * step + sizeOf)) →
    mem' q = mem q

end

/-! ## The loop -/

section

variable {S T E : Type} {n : ℕ} {io : Io S T E} {view : S → Fin n → UInt8} {sizeOf : ℕ}
  {bytes : T → ℕ → UInt8}

theorem leading_succ (k : ℕ) (p : ℕ → Bool) :
    leading (k + 1) p = if p 0 then leading k (fun i => p (i + 1)) + 1 else 0 := by
  unfold leading
  rw [List.range_succ_eq_map, List.takeWhile_cons]
  split_ifs with h
  · rw [List.length_cons, List.takeWhile_map, List.length_map]
    rfl
  · rfl

/-- The values behind the first one. -/
theorem goes_succ (base step i : ℕ) :
    Goes n sizeOf base step (i + 1) = Goes n sizeOf (base + step) step i := by
  unfold Goes
  rw [decide_eq_decide]
  have h₁ : base + (i + 1) * step = base + step + i * step := by ring
  have h₂ : base + (i + 1 + 1) * step = base + step + (i + 1) * step := by ring
  rw [h₁, h₂]

theorem Written.zero (base step : ℕ) (vals : List T) (mem : Fin n → UInt8) :
    Written bytes sizeOf base step vals 0 mem mem :=
  ⟨fun _ hi => absurd hi (Nat.not_lt_zero _), fun _ _ => rfl⟩

/-- One value is written, and then the others behind it. -/
theorem Written.cons {base step m : ℕ} {v : T} {vals : List T} {mem mem' : Fin n → UInt8}
    (hstep : sizeOf ≤ step)
    (h : Written bytes sizeOf (base + step) step vals m
      (overwrite mem base sizeOf (bytes v)) mem') :
    Written bytes sizeOf base step (v :: vals) (m + 1) mem mem' where
  values := by
    intro i hi w hw q j hj hq
    cases i with
    | zero =>
        -- The first value is not touched by the later ones
        obtain rfl := Option.some.inj hw
        rw [h.others q]
        · unfold overwrite
          rw [if_pos (by omega)]
          congr 1
          omega
        · intro i _ hin
          have : base + step ≤ base + step + i * step := Nat.le_add_right _ _
          omega
    | succ i =>
        refine h.values i (by omega) w hw q j hj ?_
        rw [hq]
        ring
  others := by
    intro q hq
    rw [h.others q]
    · have hfirst := hq 0 (Nat.succ_pos m)
      unfold overwrite
      rw [if_neg (by simpa using hfirst)]
    · intro i hi
      have hnext := hq (i + 1) (by omega)
      have heq : base + (i + 1) * step = base + step + i * step := by ring
      rw [heq] at hnext
      exact hnext

/-- What `write_vals` returns after `nr` values, when `m` more have been written. -/
def Returns (base step : ℕ) (vals : List T) (nr m : ℕ) (r : Except E ℕ) : Prop :=
  if 0 < nr + m ∨ vals = [] ∨ usizeMax < base + step then r = .ok (nr + m) else ∃ e, r = .error e

/-- **The loop** writes the values that go, and stops. -/
theorem writeLoop_spec (hio : AllOrNothing io view sizeOf bytes) (hsize : 0 < sizeOf) {step : ℕ}
    (hstep : sizeOf ≤ step) (hmax : step ≤ usizeMax) (vals : List T) :
    ∀ (s : S) (base nr : ℕ), nr * step ≤ base →
    let m := leading vals.length (Goes n sizeOf base step)
    Returns base step vals nr m (writeLoop io step vals s base nr).1 ∧
      Written bytes sizeOf base step vals m (view s)
        (view (writeLoop io step vals s base nr).2) := by
  induction vals with
  | nil =>
      intro s base nr _
      refine ⟨?_, .zero _ _ _ _⟩
      unfold Returns
      rw [if_pos (Or.inr (Or.inl rfl))]
      rfl
  | cons v vals ih =>
      intro s base nr hnr
      simp only [List.length_cons, leading_succ]
      have hguard : (nr = usizeMax ∨ (step > 0 ∧ base > usizeMax - step)) ↔
          usizeMax < base + step := by
        have hmul : nr = usizeMax → usizeMax ≤ base := by
          rintro rfl
          exact (Nat.le_mul_of_pos_right usizeMax (by omega)).trans hnr
        omega
      have hgoes : Goes n sizeOf base step 0 =
          decide (base + sizeOf ≤ n ∧ base + step ≤ usizeMax) := by
        unfold Goes
        simp
      rw [hgoes]
      unfold writeLoop
      by_cases hfull : usizeMax < base + step
      · -- Before a write after which the offset would overflow
        rw [if_pos (hguard.mpr hfull), if_neg (by simp; omega)]
        refine ⟨?_, .zero _ _ _ _⟩
        unfold Returns
        rw [if_pos (Or.inr (Or.inr hfull))]
        rfl
      · rw [if_neg (fun h => hfull (hguard.mp h))]
        by_cases hfit : base + sizeOf ≤ n
        · obtain ⟨s', hwrite, hview⟩ := hio.fits s base v hfit
          rw [hwrite, if_pos (by simp; omega)]
          have hnext : (nr + 1) * step ≤ base + step := by
            rw [Nat.succ_mul]
            omega
          obtain ⟨hret, hwritten⟩ := ih s' (base + step) (nr + 1) hnext
          have hcount : leading vals.length (fun i => Goes n sizeOf base step (i + 1)) =
              leading vals.length (Goes n sizeOf (base + step) step) := by
            congr 1
            funext i
            exact goes_succ base step i
          rw [hcount]
          constructor
          · unfold Returns at hret ⊢
            rw [if_pos (by omega)] at hret ⊢
            rw [hret]
            congr 1
            omega
          · rw [hview] at hwritten
            exact hwritten.cons hstep
        · obtain ⟨e, hwrite⟩ := hio.fails s base v (by omega)
          rw [hwrite, if_neg (by simp; omega)]
          by_cases hpos : nr > 0
          · simp only [if_pos hpos]
            refine ⟨?_, .zero _ _ _ _⟩
            unfold Returns
            rw [if_pos (by omega)]
            rfl
          · simp only [if_neg hpos]
            refine ⟨?_, .zero _ _ _ _⟩
            unfold Returns
            rw [if_neg (by simp; omega)]
            exact ⟨e, rfl⟩

/-! ## `write_vals` -/

/-- **`write_vals`.**  With the base and the step rounded up to the alignment, exactly the
leading values are written that fit in the object and whose next offset is a `usize`.  The
result is their number, except that an error is returned when the first value is tried and does
not fit. -/
theorem writeVals_written (hio : AllOrNothing io view sizeOf bytes) (hsize : 0 < sizeOf) (s : S)
    (offset : ℕ) (vals : List T) (align : ℕ) (halign : align ≤ 1 ∨ ∃ e, align = 2 ^ e)
    (hoffset : offset + align ≤ usizeMax) (hitem : sizeOf + align ≤ usizeMax) :
    let base := roundUpTo offset align
    let step := roundUpTo sizeOf align
    let m := leading vals.length (Goes n sizeOf base step)
    ∃ r s', writeVals io sizeOf s offset vals align = .ok (r, s') ∧
      Written bytes sizeOf base step vals m (view s) (view s') ∧
      (0 < m ∨ vals = [] ∨ usizeMax < base + step → r = .ok m) ∧
      (¬(0 < m ∨ vals = [] ∨ usizeMax < base + step) → ∃ e, r = .error e) := by
  intro base step m
  have hstep : sizeOf ≤ step := le_roundUpTo sizeOf align
  have hmax : step ≤ usizeMax := by
    have := roundUpTo_le sizeOf align
    omega
  obtain ⟨hret, hwritten⟩ :=
    writeLoop_spec hio hsize hstep hmax vals s base 0 (by rw [Nat.zero_mul]; exact Nat.zero_le _)
  have hrun : writeVals io sizeOf s offset vals align = .ok (writeLoop io step vals s base 0) := by
    unfold writeVals
    by_cases hle : align ≤ 1
    · have hbase : base = offset := if_pos hle
      have hstep' : step = sizeOf := if_pos hle
      rw [if_pos hle, hbase, hstep']
      rfl
    · obtain ⟨e, he⟩ := halign.resolve_left hle
      obtain ⟨b, hb, rfl⟩ := (post_alignUpTo (a := offset) (A := fun _ => False) he (by omega)
        (by unfold usizeMax at hoffset; omega)).exists_ok
      obtain ⟨c, hc, rfl⟩ := (post_alignUpTo (a := sizeOf) (A := fun _ => False) he (by omega)
        (by unfold usizeMax at hitem; omega)).exists_ok
      rw [if_neg hle, hb, hc]
      rfl
  refine ⟨_, _, hrun, hwritten, ?_, ?_⟩
  · intro h
    unfold Returns at hret
    rw [Nat.zero_add] at hret
    rwa [if_pos h] at hret
  · intro h
    unfold Returns at hret
    rw [Nat.zero_add] at hret
    rwa [if_neg h] at hret

end

/-! ## An object -/

/-- A buffer of `n` bytes, with values of `k` bytes. -/
def buffer (n k : ℕ) : Io (Fin n → UInt8) (Fin k → UInt8) Unit where
  writeVal := fun mem offset v =>
    if offset + k ≤ n then
      (.ok (), overwrite mem offset k (fun j => if h : j < k then v ⟨j, h⟩ else 0))
    else (.error (), mem)

theorem buffer_allOrNothing (n k : ℕ) :
    AllOrNothing (buffer n k) id k (fun v j => if h : j < k then v ⟨j, h⟩ else 0) where
  fits := by
    intro s offset v hfit
    exact ⟨_, if_pos hfit, rfl⟩
  fails := by
    intro s offset v hnot
    exact ⟨(), if_neg (by omega)⟩

/-- Three values of three bytes at multiples of four, of which two fit. -/
theorem writeVals_written_buffer :
    ∃ s', writeVals (buffer 12 3) 3 (fun _ => 0) 1 [fun _ => 1, fun _ => 2, fun _ => 3] 4
        = .ok (.ok 2, s') ∧
      Written (fun (v : Fin 3 → UInt8) j => if h : j < 3 then v ⟨j, h⟩ else 0) 3 4 4
        [fun _ => 1, fun _ => 2, fun _ => 3] 2 (fun _ => 0) s' := by
  obtain ⟨r, s', hrun, hwritten, hok, -⟩ := writeVals_written (buffer_allOrNothing 12 3)
    (by decide) (fun _ => 0) 1 [fun _ => 1, fun _ => 2, fun _ => 3] 4 (Or.inr ⟨2, rfl⟩)
    (by decide) (by decide)
  rw [hok (Or.inl (by decide))] at hrun
  exact ⟨s', hrun, hwritten⟩

/-- **At the top of the address space the first value is not tried**: nothing is written, and
the result is not an error. -/
theorem writeVals_top :
    AllOrNothing (buffer 16 8) id 8 (fun v j => if h : j < 8 then v ⟨j, h⟩ else 0) ∧
      2 ^ 64 - 8 + 0 ≤ usizeMax ∧ 8 + 0 ≤ usizeMax ∧
      leading 1 (fun i => decide (2 ^ 64 - 8 + i * 8 + 8 ≤ 16)) = 0 ∧
      writeVals (buffer 16 8) 8 (fun _ => 0) (2 ^ 64 - 8) [fun _ => 1] 0
        = .ok (.ok 0, fun _ => 0) := by
  refine ⟨buffer_allOrNothing 16 8, by decide, by decide, by decide, ?_⟩
  unfold writeVals
  rw [if_pos (Nat.zero_le 1)]
  show Except.ok (writeLoop (buffer 16 8) 8 [fun _ => 1] (fun _ => 0) (2 ^ 64 - 8) 0) = _
  unfold writeLoop
  rw [if_pos (Or.inr ⟨by decide, by decide⟩)]

end VmIo

end Vostd
