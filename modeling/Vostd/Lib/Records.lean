/-
# Packed little-endian records

A packed record is a sequence of fields, each of them a number of a given width in bytes.
It is written by putting the fields one after the other (`encode`), and a field is read back
by its offset and width alone (`readLe_encode`), whatever follows the record.
-/
import Mathlib

namespace Vostd.Record

/-- The `width` little-endian bytes of a number; higher bytes are dropped. -/
def leBytes : ℕ → ℕ → List UInt8
  | 0, _ => []
  | width + 1, x => UInt8.ofNat x :: leBytes width (x / 256)

/-- The number with the given little-endian bytes. -/
def leValue : List UInt8 → ℕ
  | [] => 0
  | b :: bytes => b.toNat + 256 * leValue bytes

/-- The number in a window of a byte sequence. -/
def readLe (bytes : List UInt8) (offset width : ℕ) : ℕ :=
  leValue ((bytes.drop offset).take width)

@[simp] theorem length_leBytes (width x : ℕ) : (leBytes width x).length = width := by
  induction width generalizing x with
  | zero => rfl
  | succ width ih => rw [leBytes, List.length_cons, ih]

theorem leValue_leBytes (width x : ℕ) : leValue (leBytes width x) = x % 256 ^ width := by
  induction width generalizing x with
  | zero => rw [leBytes, leValue, pow_zero, Nat.mod_one]
  | succ width ih =>
    rw [leBytes, leValue, ih, UInt8.toNat_ofNat', pow_succ' 256, Nat.mod_mul]

/-! ## Records -/

/-- A field of a record. -/
structure RecordField where
  width : ℕ
  value : ℕ
  deriving DecidableEq, Repr

/-- The bytes of a record. -/
def encode (fields : List RecordField) : List UInt8 :=
  fields.flatMap fun f => leBytes f.width f.value

/-- The number of bytes of a record. -/
def size (fields : List RecordField) : ℕ := (fields.map RecordField.width).sum

theorem length_encode (fields : List RecordField) : (encode fields).length = size fields := by
  induction fields with
  | nil => rfl
  | cons f fields ih =>
    unfold encode size at ih ⊢
    rw [List.flatMap_cons, List.length_append, length_leBytes, ih, List.map_cons, List.sum_cons]

theorem size_append (before after : List RecordField) :
    size (before ++ after) = size before + size after := by
  unfold size
  rw [List.map_append, List.sum_append]

theorem encode_append (before after : List RecordField) :
    encode (before ++ after) = encode before ++ encode after := by
  unfold encode
  rw [List.flatMap_append]

/-- What is read behind some fields is read of the rest of the record. -/
theorem readLe_encode_skip (before after : List RecordField) (rest : List UInt8)
    (offset width : ℕ) :
    readLe (encode (before ++ after) ++ rest) (size before + offset) width =
      readLe (encode after ++ rest) offset width := by
  unfold readLe
  rw [encode_append, List.append_assoc, ← List.drop_drop, List.drop_left' (length_encode before)]

/-- The first field of a record is read back. -/
theorem readLe_encode_head {f : RecordField} (after : List RecordField) (rest : List UInt8)
    (hfits : f.value < 256 ^ f.width) :
    readLe (encode (f :: after) ++ rest) 0 f.width = f.value := by
  have hsplit : encode (f :: after) ++ rest =
      leBytes f.width f.value ++ (encode after ++ rest) := by
    rw [encode, List.flatMap_cons, List.append_assoc]
    rfl
  unfold readLe
  rw [hsplit, List.drop_zero, List.take_left' (length_leBytes _ _), leValue_leBytes,
    Nat.mod_eq_of_lt hfits]

/-- **A field is read back** where the fields before it end. -/
theorem readLe_encode (before after : List RecordField) {f : RecordField} (rest : List UInt8)
    (hfits : f.value < 256 ^ f.width) {offset : ℕ} (hoffset : size before = offset) :
    readLe (encode (before ++ f :: after) ++ rest) offset f.width = f.value := by
  rw [← hoffset, ← Nat.add_zero (size before), readLe_encode_skip]
  exact readLe_encode_head after rest hfits

end Vostd.Record
