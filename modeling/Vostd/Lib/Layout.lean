/-
# Fixed layouts

A layout says how the values of a type stand in a fixed number of bytes.  It is a pair of
functions with the two laws of a format: what was written is read back, whatever follows it,
and what was read is what stands in the bytes.  Layouts of machine words, of arrays of bytes
and of records are built from each other, so that a record's laws come from those of its
fields.
-/
import Vostd.Lib.Records

namespace Vostd

namespace Record

/-- Bytes are the bytes of the number they spell. -/
theorem leBytes_leValue (bytes : List UInt8) : leBytes bytes.length (leValue bytes) = bytes := by
  induction bytes with
  | nil => rfl
  | cons b bytes ih =>
    have hb : b.toNat < 256 := b.toNat_lt
    have hdiv : (b.toNat + 256 * leValue bytes) / 256 = leValue bytes := by omega
    have hmod : (b.toNat + 256 * leValue bytes) % 256 = b.toNat := by omega
    rw [List.length_cons, leValue, leBytes, hdiv, ih]
    congr 1
    apply UInt8.toNat.inj
    rw [UInt8.toNat_ofNat', hmod]

theorem leValue_lt (bytes : List UInt8) : leValue bytes < 256 ^ bytes.length := by
  induction bytes with
  | nil => rw [leValue, List.length_nil, pow_zero]; exact Nat.one_pos
  | cons b bytes ih =>
    have hb : b.toNat < 256 := b.toNat_lt
    rw [leValue, List.length_cons, pow_succ']
    omega

end Record

open Record

/-- How the values of a type stand in `size` bytes. -/
structure Layout (α : Type) where
  size : ℕ
  toBytes : α → List UInt8
  ofBytes : List UInt8 → α
  length_toBytes : ∀ a, (toBytes a).length = size
  ofBytes_append : ∀ a rest, ofBytes (toBytes a ++ rest) = a
  toBytes_ofBytes : ∀ bytes, size ≤ bytes.length → toBytes (ofBytes bytes) = bytes.take size

namespace Layout

variable {α β : Type}

/-- Bytes that start with a value are those of the value and a rest. -/
theorem toBytes_ofBytes_append (L : Layout α) (bytes : List UInt8) (h : L.size ≤ bytes.length) :
    L.toBytes (L.ofBytes bytes) ++ bytes.drop L.size = bytes := by
  rw [L.toBytes_ofBytes bytes h, List.take_append_drop]

/-- Only the first bytes are read. -/
theorem ofBytes_append_of_le (L : Layout α) (bytes : List UInt8) (h : L.size ≤ bytes.length)
    (rest : List UInt8) : L.ofBytes (bytes ++ rest) = L.ofBytes bytes := by
  conv_lhs => rw [← L.toBytes_ofBytes_append bytes h, List.append_assoc]
  exact L.ofBytes_append _ _

theorem ofBytes_take (L : Layout α) (bytes : List UInt8) {n : ℕ} (h : L.size ≤ n)
    (hle : n ≤ bytes.length) : L.ofBytes (bytes.take n) = L.ofBytes bytes := by
  have hlen : L.size ≤ (bytes.take n).length := by rw [List.length_take]; omega
  rw [← L.ofBytes_append_of_le _ hlen (bytes.drop n), List.take_append_drop]

/-- A machine word of `width` bytes, in little-endian order. -/
def word (width : ℕ) (toNat : α → ℕ) (ofNat : ℕ → α) (hlt : ∀ a, toNat a < 256 ^ width)
    (hofNat : ∀ a, ofNat (toNat a) = a) (htoNat : ∀ n, n < 256 ^ width → toNat (ofNat n) = n) :
    Layout α where
  size := width
  toBytes a := leBytes width (toNat a)
  ofBytes bytes := ofNat (leValue (bytes.take width))
  length_toBytes a := length_leBytes width (toNat a)
  ofBytes_append a rest := by
    rw [List.take_left' (length_leBytes _ _), leValue_leBytes, Nat.mod_eq_of_lt (hlt a), hofNat]
  toBytes_ofBytes bytes hle := by
    have hlen : (bytes.take width).length = width := by rw [List.length_take]; omega
    have hval : leValue (bytes.take width) < 256 ^ width := by
      have h := leValue_lt (bytes.take width)
      rwa [hlen] at h
    rw [htoNat _ hval]
    have h := leBytes_leValue (bytes.take width)
    rwa [hlen] at h

def u8 : Layout UInt8 :=
  word 1 UInt8.toNat UInt8.ofNat (fun a => a.toNat_lt) (fun _ => UInt8.ofNat_toNat)
    (fun _ h => UInt8.toNat_ofNat_of_lt' h)

def u16 : Layout UInt16 :=
  word 2 UInt16.toNat UInt16.ofNat (fun a => a.toNat_lt) (fun _ => UInt16.ofNat_toNat)
    (fun _ h => UInt16.toNat_ofNat_of_lt' h)

def u32 : Layout UInt32 :=
  word 4 UInt32.toNat UInt32.ofNat (fun a => a.toNat_lt) (fun _ => UInt32.ofNat_toNat)
    (fun _ h => UInt32.toNat_ofNat_of_lt' h)

def u64 : Layout UInt64 :=
  word 8 UInt64.toNat UInt64.ofNat (fun a => a.toNat_lt) (fun _ => UInt64.ofNat_toNat)
    (fun _ h => UInt64.toNat_ofNat_of_lt' h)

/-- Two values one after the other. -/
def prod (L : Layout α) (M : Layout β) : Layout (α × β) where
  size := L.size + M.size
  toBytes p := L.toBytes p.1 ++ M.toBytes p.2
  ofBytes bytes := (L.ofBytes bytes, M.ofBytes (bytes.drop L.size))
  length_toBytes p := by rw [List.length_append, L.length_toBytes, M.length_toBytes]
  ofBytes_append p rest := by
    rw [List.append_assoc, L.ofBytes_append, List.drop_left' (L.length_toBytes _),
      M.ofBytes_append]
  toBytes_ofBytes bytes hle := by
    have hdrop : M.size ≤ (bytes.drop L.size).length := by rw [List.length_drop]; omega
    rw [L.toBytes_ofBytes bytes (by omega), M.toBytes_ofBytes _ hdrop, ← List.take_add]

/-- A sequence of `n` bytes. -/
abbrev Bytes (n : ℕ) : Type := { l : List UInt8 // l.length = n }

/-- An array of bytes stands for itself. -/
def bytes (n : ℕ) : Layout (Bytes n) where
  size := n
  toBytes b := b.val
  ofBytes bytes := ⟨(bytes ++ List.replicate n 0).take n, by
    rw [List.length_take, List.length_append, List.length_replicate]; omega⟩
  length_toBytes b := b.property
  ofBytes_append b rest := by
    apply Subtype.ext
    show (b.val ++ rest ++ List.replicate n 0).take n = b.val
    rw [List.append_assoc]
    exact List.take_left' b.property
  toBytes_ofBytes bytes hle := List.take_append_of_le_length hle

/-- The same bytes for another type. -/
def map (e : α ≃ β) (L : Layout α) : Layout β where
  size := L.size
  toBytes b := L.toBytes (e.symm b)
  ofBytes bytes := e (L.ofBytes bytes)
  length_toBytes b := L.length_toBytes _
  ofBytes_append b rest := by rw [L.ofBytes_append, Equiv.apply_symm_apply]
  toBytes_ofBytes bytes hle := by rw [Equiv.symm_apply_apply, L.toBytes_ofBytes bytes hle]

@[simp] theorem size_u8 : u8.size = 1 := rfl
@[simp] theorem size_u16 : u16.size = 2 := rfl
@[simp] theorem size_u32 : u32.size = 4 := rfl
@[simp] theorem size_u64 : u64.size = 8 := rfl
@[simp] theorem size_bytes (n : ℕ) : (bytes n).size = n := rfl
@[simp] theorem size_prod (L : Layout α) (M : Layout β) : (L.prod M).size = L.size + M.size := rfl
@[simp] theorem size_map (e : α ≃ β) (L : Layout α) : (L.map e).size = L.size := rfl

end Layout

end Vostd
