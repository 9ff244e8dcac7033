/-
# The flat binary of the setup

`to_flat_binary` is a sequence of resizes and overwrites in the order of the program headers.
Its result is described byte by byte: the byte at a file offset is the one that the last
segment around it puts there, and zero where there is none (`toFlatBinary_spec`).
-/
import Vostd.Bzimage.Builder

namespace Vostd.Bzimage

open Exec Record

/-! ## Bytes of a file -/

/-- The byte at an offset, zero past the end. -/
def byteAt (bin : List UInt8) (i : ℕ) : UInt8 := bin.getD i 0

section

variable {bin data : List UInt8} {i len offset : ℕ}

theorem byteAt_of_length_le (h : bin.length ≤ i) : byteAt bin i = 0 := by
  unfold byteAt
  rw [List.getD_eq_default _ _ h]

theorem byteAt_append_left {rest : List UInt8} (h : i < bin.length) :
    byteAt (bin ++ rest) i = byteAt bin i := by
  unfold byteAt
  rw [List.getD_append _ _ _ _ h]

theorem byteAt_append_right {rest : List UInt8} (h : bin.length ≤ i) :
    byteAt (bin ++ rest) i = byteAt rest (i - bin.length) := by
  unfold byteAt
  rw [List.getD_append_right _ _ _ _ h]

theorem byteAt_take (h : i < len) : byteAt (bin.take len) i = byteAt bin i := by
  unfold byteAt
  rw [List.getD_eq_getElem?_getD, List.getD_eq_getElem?_getD, List.getElem?_take_of_lt h]

theorem byteAt_drop : byteAt (bin.drop len) i = byteAt bin (len + i) := by
  unfold byteAt
  rw [List.getD_eq_getElem?_getD, List.getD_eq_getElem?_getD, List.getElem?_drop]

theorem byteAt_replicate : byteAt (List.replicate len 0) i = 0 := by
  unfold byteAt
  rw [List.getD_eq_getElem?_getD, List.getElem?_replicate]
  split_ifs
  · rfl
  · rfl

theorem length_resize : (resize bin len).length = len := by
  unfold resize
  rw [List.length_append, List.length_take, List.length_replicate]
  omega

/-- Growing a file shows only zeros. -/
theorem byteAt_resize (h : bin.length ≤ len) : byteAt (resize bin len) i = byteAt bin i := by
  unfold resize
  rw [List.take_of_length_le h]
  by_cases hi : i < bin.length
  · exact byteAt_append_left hi
  · rw [byteAt_append_right (not_lt.mp hi), byteAt_replicate, byteAt_of_length_le (not_lt.mp hi)]

theorem length_copyAt (h : offset + data.length ≤ bin.length) :
    (copyAt bin offset data).length = bin.length := by
  unfold copyAt
  rw [List.length_append, List.length_append, List.length_take, List.length_drop]
  omega

theorem byteAt_copyAt (h : offset ≤ bin.length) :
    byteAt (copyAt bin offset data) i =
      if offset ≤ i ∧ i < offset + data.length then byteAt data (i - offset)
      else byteAt bin i := by
  have htake : (bin.take offset).length = offset := by
    rw [List.length_take]
    omega
  unfold copyAt
  rw [List.append_assoc]
  by_cases hlow : i < offset
  · rw [byteAt_append_left (by omega), byteAt_take hlow, if_neg (by omega)]
  · rw [byteAt_append_right (by omega), htake]
    by_cases hhigh : i < offset + data.length
    · rw [byteAt_append_left (by omega), if_pos (by omega)]
    · rw [byteAt_append_right (by omega), byteAt_drop, if_neg (by omega)]
      congr 1
      omega

end

/-! ## The flat binary -/

/-- The file offset of a segment. -/
def ProgramHeader.offset (p : ProgramHeader) : ℕ :=
  p.virtualAddr + LEGACY_SETUP_SEC_SIZE - SETUP32_LMA

/-- The file offset is in the part that is copied from the segment. -/
def ProgramHeader.Covers (p : ProgramHeader) (i : ℕ) : Prop :=
  p.offset ≤ i ∧ i < p.offset + p.fileSize

instance decidableCovers (p : ProgramHeader) (i : ℕ) : Decidable (p.Covers i) := by
  unfold ProgramHeader.Covers
  infer_instance

/-- What a segment leaves at an offset where `b` was. -/
def overlay (i : ℕ) (b : UInt8) (p : ProgramHeader) : UInt8 :=
  if p.Covers i then byteAt p.data (i - p.offset) else b

/-- What the flat copy relies on. -/
structure ProgramHeader.Placed (p : ProgramHeader) : Prop where
  load : p.isLoad = true
  fileSize_le : p.fileSize ≤ p.memSize
  ge : SETUP32_LMA - LEGACY_SETUP_SEC_SIZE ≤ p.virtualAddr
  end_le : p.virtualAddr + p.memSize ≤ 2 ^ 32

section

variable {p : ProgramHeader} {bin : List UInt8}

theorem setupFileOffset_eq (hge : SETUP32_LMA - LEGACY_SETUP_SEC_SIZE ≤ p.virtualAddr)
    (hle : p.virtualAddr ≤ 2 ^ 32) : setupFileOffset p.virtualAddr = .ok p.offset := by
  have hsize : LEGACY_SETUP_SEC_SIZE = 0x1000 := rfl
  have hlma : SETUP32_LMA = 0x100000 := rfl
  unfold setupFileOffset ProgramHeader.offset
  rw [add_eq (by omega), ok_bind, sub_eq (by omega)]

theorem ProgramHeader.Placed.offset_add (h : p.Placed) :
    p.offset + SETUP32_LMA = p.virtualAddr + LEGACY_SETUP_SEC_SIZE := by
  have hge := h.ge
  have hsize : LEGACY_SETUP_SEC_SIZE = 0x1000 := rfl
  have hlma : SETUP32_LMA = 0x100000 := rfl
  unfold ProgramHeader.offset
  omega

theorem ProgramHeader.Placed.offset_end_le (h : p.Placed) : p.offset + p.memSize ≤ 2 ^ 32 := by
  have hoff := h.offset_add
  have hend := h.end_le
  have hsize : LEGACY_SETUP_SEC_SIZE = 0x1000 := rfl
  have hlma : SETUP32_LMA = 0x100000 := rfl
  omega

/-- **One segment**: the file grows to hold it, and its data is laid over what was there. -/
theorem flattenProgram_spec (h : p.Placed) (bin : List UInt8) :
    ∃ bin', flattenProgram bin p = .ok bin' ∧
      bin'.length = max bin.length (p.offset + p.memSize) ∧
      ∀ i, byteAt bin' i = overlay i (byteAt bin i) p := by
  have hfile := h.fileSize_le
  have hend := h.offset_end_le
  set grown := if bin.length < p.offset + p.memSize then resize bin (p.offset + p.memSize)
    else bin with hgrown
  have hlen : grown.length = max bin.length (p.offset + p.memSize) := by
    rw [hgrown]
    split_ifs with hlt
    · rw [length_resize]
      omega
    · omega
  have hbytes (i : ℕ) : byteAt grown i = byteAt bin i := by
    rw [hgrown]
    split_ifs with hlt
    · exact byteAt_resize hlt.le
    · rfl
  refine ⟨copyAt grown p.offset p.data, ?_, ?_, ?_⟩
  · unfold flattenProgram
    have hge := h.ge
    have hle := h.end_le
    rw [if_pos h.load, setupFileOffset_eq hge (by omega), ok_bind, add_eq (by omega), ok_bind,
      add_eq (by omega), ok_bind, ← hgrown, check_pos (by omega), ok_bind]
  · rw [length_copyAt (by unfold ProgramHeader.fileSize at hfile; omega), hlen]
  · intro i
    rw [byteAt_copyAt (by omega), hbytes, overlay]
    by_cases hcov : p.Covers i
    · rw [if_pos hcov]
      exact if_pos hcov
    · rw [if_neg hcov]
      exact if_neg hcov

/-- **The flat binary**, from any start. -/
theorem foldlM_flattenProgram_spec (programs : List ProgramHeader) {bound : ℕ}
    (h : ∀ p ∈ programs, p.Placed) (hbound : ∀ p ∈ programs, p.offset + p.memSize ≤ bound) :
    ∀ bin : List UInt8, bin.length ≤ bound →
      ∃ bin', programs.foldlM flattenProgram bin = .ok bin' ∧
        bin.length ≤ bin'.length ∧ bin'.length ≤ bound ∧
        (∀ p ∈ programs, p.offset + p.memSize ≤ bin'.length) ∧
        ∀ i, byteAt bin' i = programs.foldl (overlay i) (byteAt bin i) := by
  induction programs with
  | nil =>
    intro bin hbin
    exact ⟨bin, rfl, le_refl _, hbin, fun _ hp => absurd hp List.not_mem_nil, fun _ => rfl⟩
  | cons p programs ih =>
    intro bin hbin
    obtain ⟨bin₁, hstep, hlen₁, hbytes₁⟩ := flattenProgram_spec (h p List.mem_cons_self) bin
    have hp := hbound p List.mem_cons_self
    obtain ⟨bin', hrun, hle, hbd, hmem, hbytes⟩ := ih (fun q hq => h q (List.mem_cons_of_mem _ hq))
      (fun q hq => hbound q (List.mem_cons_of_mem _ hq)) bin₁ (by omega)
    refine ⟨bin', ?_, by omega, hbd, ?_, ?_⟩
    · rw [List.foldlM_cons, hstep]
      exact hrun
    · intro q hq
      rcases List.mem_cons.mp hq with rfl | hq
      · omega
      · exact hmem q hq
    · intro i
      rw [hbytes, hbytes₁, List.foldl_cons]

theorem toFlatBinary_spec {elf : ElfFile} (h : ∀ p ∈ elf.programs, p.Placed) :
    ∃ bin, toFlatBinary elf = .ok bin ∧ bin.length ≤ 2 ^ 32 ∧
      (∀ p ∈ elf.programs, p.offset + p.memSize ≤ bin.length) ∧
      ∀ i, byteAt bin i = elf.programs.foldl (overlay i) 0 := by
  obtain ⟨bin, hrun, -, hbound, hmem, hbytes⟩ := foldlM_flattenProgram_spec elf.programs h
    (fun p hp => (h p hp).offset_end_le) [] (Nat.zero_le _)
  exact ⟨bin, hrun, hbound, hmem, hbytes⟩

theorem foldl_overlay_of_not_covers {programs : List ProgramHeader} {i : ℕ}
    (h : ∀ p ∈ programs, ¬p.Covers i) (b : UInt8) : programs.foldl (overlay i) b = b := by
  induction programs generalizing b with
  | nil => rfl
  | cons p programs ih =>
    rw [List.foldl_cons, overlay, if_neg (h p List.mem_cons_self)]
    exact ih (fun q hq => h q (List.mem_cons_of_mem _ hq)) b

/-- At an offset of one segment alone the byte is that of the segment. -/
theorem foldl_overlay_eq {before after : List ProgramHeader} {i : ℕ} (hi : p.offset ≤ i)
    (hbefore : ∀ q ∈ before, ¬q.Covers i) (hafter : ∀ q ∈ after, ¬q.Covers i) :
    (before ++ p :: after).foldl (overlay i) 0 = byteAt p.data (i - p.offset) := by
  rw [List.foldl_append, List.foldl_cons, foldl_overlay_of_not_covers hbefore,
    foldl_overlay_of_not_covers hafter]
  unfold overlay
  split_ifs with hcov
  · rfl
  · -- past the data the segment is zero
    rw [byteAt_of_length_le]
    unfold ProgramHeader.Covers ProgramHeader.fileSize at hcov
    omega

end

end Vostd.Bzimage
