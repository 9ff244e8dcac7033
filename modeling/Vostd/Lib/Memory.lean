/-
# Byte memories

A memory gives every address a byte.  A block of bytes is loaded from an address on and stored
from an address on; words are blocks of eight bytes in little-endian order.  The lemmas say
what a store leaves behind: the stored bytes inside its range, everything else outside.
-/
import Vostd.Lib.Layout

namespace Vostd

/-- A byte for every address. -/
abbrev Memory : Type := ℕ → UInt8

namespace Memory

open Record

/-- The `n` bytes from an address on. -/
def load (m : Memory) : ℕ → ℕ → List UInt8
  | _, 0 => []
  | a, n + 1 => m a :: load m (a + 1) n

/-- The memory with the bytes at the addresses from `a` on. -/
def store (m : Memory) (a : ℕ) (bytes : List UInt8) : Memory :=
  fun x => if a ≤ x then (bytes[x - a]?).getD (m x) else m x

/-- The ranges of `n` bytes at `a` and of `k` bytes at `b` have no address in common. -/
def Apart (a n b k : ℕ) : Prop := a + n ≤ b ∨ b + k ≤ a

instance instDecidableApart (a n b k : ℕ) : Decidable (Apart a n b k) :=
  inferInstanceAs (Decidable (_ ∨ _))

theorem Apart.symm {a n b k : ℕ} (h : Apart a n b k) : Apart b k a n := Or.symm h

theorem Apart.mono {a n b k a' n' b' k' : ℕ} (h : Apart a n b k) (ha : a ≤ a')
    (hn : a' + n' ≤ a + n) (hb : b ≤ b') (hk : b' + k' ≤ b + k) : Apart a' n' b' k' := by
  unfold Apart at *
  omega

variable {m m' : Memory} {a b n k : ℕ} {bytes : List UInt8}

@[simp] theorem length_load (m : Memory) (a n : ℕ) : (m.load a n).length = n := by
  induction n generalizing a with
  | zero => rfl
  | succ n ih => rw [load, List.length_cons, ih]

/-- A load depends on its range alone. -/
theorem load_congr (h : ∀ x, a ≤ x → x < a + n → m x = m' x) : m.load a n = m'.load a n := by
  induction n generalizing a with
  | zero => rfl
  | succ n ih =>
    rw [load, load, h a le_rfl (by omega), ih fun x hx hx' => h x (by omega) (by omega)]

theorem getElem?_load {i : ℕ} (h : i < n) : (m.load a n)[i]? = some (m (a + i)) := by
  induction n generalizing a i with
  | zero => omega
  | succ n ih =>
    cases i with
    | zero => rfl
    | succ i =>
      rw [load, List.getElem?_cons_succ, ih (by omega), show a + 1 + i = a + (i + 1) by omega]

/-- Outside of the stored range nothing changes. -/
theorem store_of_not_mem {x : ℕ} (h : x < a ∨ a + bytes.length ≤ x) :
    m.store a bytes x = m x := by
  unfold store
  rcases h with h | h
  · rw [if_neg (by omega)]
  · rw [if_pos (by omega), List.getElem?_eq_none (by omega), Option.getD_none]

theorem store_add {i : ℕ} (h : i < bytes.length) : m.store a bytes (a + i) = bytes.get ⟨i, h⟩ := by
  unfold store
  rw [if_pos (by omega), Nat.add_sub_cancel_left, List.getElem?_eq_getElem h, Option.getD_some]
  rfl

/-- What was stored is loaded. -/
theorem load_store (m : Memory) (a : ℕ) (bytes : List UInt8) :
    (m.store a bytes).load a bytes.length = bytes := by
  induction bytes generalizing m a with
  | nil => rfl
  | cons b bytes ih =>
    have hhead : m.store a (b :: bytes) a = b :=
      store_add (i := 0) (show 0 < (b :: bytes).length from Nat.zero_lt_succ _)
    have htail : (m.store a (b :: bytes)).load (a + 1) bytes.length =
        (m.store (a + 1) bytes).load (a + 1) bytes.length := by
      apply load_congr
      intro x hx hx'
      obtain ⟨i, rfl⟩ : ∃ i, x = a + 1 + i := ⟨x - (a + 1), by omega⟩
      have hi : i < bytes.length := by omega
      rw [store_add hi, show a + 1 + i = a + (i + 1) from by omega,
        store_add (show i + 1 < (b :: bytes).length from Nat.succ_lt_succ hi)]
      rfl
    rw [List.length_cons, load, hhead, htail, ih]

/-- A block is stored in two parts. -/
theorem store_append (m : Memory) (a : ℕ) (xs ys : List UInt8) :
    m.store a (xs ++ ys) = (m.store a xs).store (a + xs.length) ys := by
  funext x
  unfold store
  by_cases hx : a ≤ x
  · by_cases hx' : a + xs.length ≤ x
    · rw [if_pos hx, if_pos hx', if_pos hx, List.getElem?_append_right (by omega),
        List.getElem?_eq_none (l := xs) (by omega), Option.getD_none, Nat.sub_sub]
    · rw [if_pos hx, if_neg hx', if_pos hx, List.getElem?_append_left (by omega)]
  · rw [if_neg hx, if_neg (by omega), if_neg hx]

/-! ## Words -/

/-- The word at an address. -/
def loadWord (m : Memory) (a : ℕ) : ℕ := leValue (m.load a 8)

/-- The memory with a word at an address. -/
def storeWord (m : Memory) (a v : ℕ) : Memory := m.store a (leBytes 8 v)

theorem loadWord_storeWord {v : ℕ} (hv : v < 2 ^ 64) : (m.storeWord a v).loadWord a = v := by
  have h := load_store m a (leBytes 8 v)
  rw [length_leBytes] at h
  rw [loadWord, storeWord, h, leValue_leBytes]
  exact Nat.mod_eq_of_lt hv

theorem loadWord_congr (h : ∀ x, a ≤ x → x < a + 8 → m x = m' x) :
    m.loadWord a = m'.loadWord a := by
  rw [loadWord, loadWord, load_congr h]

theorem storeWord_of_not_mem {v x : ℕ} (h : x < a ∨ a + 8 ≤ x) : m.storeWord a v x = m x := by
  apply store_of_not_mem
  rw [length_leBytes]
  exact h

end Memory

end Vostd
