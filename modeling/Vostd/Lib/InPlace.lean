/-
# Loops that pack an array in place

A loop reads an array from left to right and writes to the front of the same array, never
past what it has read.  `Packed orig v i out`: the first `i` entries of `orig` have been
read, `out` is what stands at the front, and what is still to be read is as it was.
-/
import Vostd.Lib.Exec

namespace Vostd

namespace Exec

variable {α : Type} {n : ℕ}

/-- `a[i]` -/
def load (a : Vector α n) (i : ℕ) : Exec α := unwrap a[i]?

/-- `a[i] = x` -/
def store (a : Vector α n) (i : ℕ) (x : α) : Exec (Vector α n) :=
  if h : i < n then .ok (a.set i x h) else .error .assertion

variable {A : Fault → Prop} {a : Vector α n} {i : ℕ} {x : α}

theorem post_load (h : n ≤ i → A .assertion) : Post A (load a i) (fun x => a[i]? = some x) := by
  apply post_unwrap
  intro hnone
  apply h
  rwa [Vector.getElem?_eq_none_iff] at hnone

theorem post_store (h : n ≤ i → A .assertion) :
    Post A (store a i x) (fun b => b[i]? = some x ∧ ∀ j, j ≠ i → b[j]? = a[j]?) := by
  unfold store
  by_cases hi : i < n
  · rw [dif_pos hi]
    constructor
    · rw [Vector.getElem?_set_self]
    · intro j hj
      rw [Vector.getElem?_set_ne _ hj.symm]
  · rw [dif_neg hi]
    exact h (not_lt.mp hi)

end Exec

/-- The state of a loop that packs `orig`. -/
structure Packed {α : Type} {n : ℕ} (orig v : Vector α n) (i : ℕ) (out : List α) : Prop where
  length_le : out.length ≤ i
  front : v.toList.take out.length = out
  rest : ∀ j, i ≤ j → v[j]? = orig[j]?

namespace Packed

variable {α : Type} {n : ℕ} {orig v : Vector α n} {i : ℕ} {out : List α} {x y : α}
  {A : Fault → Prop}

/-- The first entries of an array as they are. -/
theorem take (v : Vector α n) (hi : i ≤ n) : Packed v v i (v.toList.take i) := by
  have hlen : (v.toList.take i).length = i := by
    rw [List.length_take, Vector.length_toList, min_eq_left hi]
  refine ⟨hlen.le, ?_, fun _ _ => rfl⟩
  rw [hlen]

/-- An entry is read and not kept. -/
theorem skip (h : Packed orig v i out) : Packed orig v (i + 1) out :=
  ⟨h.length_le.trans (Nat.le_succ i), h.front, fun j hj => h.rest j (Nat.le_of_succ_le hj)⟩

/-- What is read. -/
theorem post_load (h : Packed orig v i out) (hi : i < n) :
    Exec.Post A (Exec.load v i) (fun x => orig[i]? = some x) := by
  rw [← h.rest i le_rfl]
  exact Exec.post_load (fun hout => absurd hi (not_lt.mpr hout))

/-- The last entry at the front is read. -/
theorem post_load_last (h : Packed orig v i (out ++ [y])) :
    Exec.Post A (Exec.load v out.length) (fun x => y = x) := by
  have hlen := h.length_le
  rw [List.length_append, List.length_singleton] at hlen
  have hget : v[out.length]? = some y := by
    have hfront := congrArg (fun l => l[out.length]?) h.front
    simp only [List.length_append, List.length_singleton, List.getElem?_take,
      Nat.lt_succ_self, if_true, List.getElem?_concat_length] at hfront
    rw [← hfront, ← Vector.getElem?_toList]
  unfold Exec.load
  rw [hget]
  rfl

theorem take_set (v : Vector α n) {c : ℕ} (hc : c < n) :
    (v.set c x hc).toList.take (c + 1) = v.toList.take c ++ [x] := by
  rw [Vector.toList_set, List.take_add_one, List.take_set_of_le le_rfl]
  have hlen : c < v.toList.length := by rw [Vector.length_toList]; exact hc
  rw [List.getElem?_set_self hlen]
  rfl

/-- **An entry is written behind those at the front.** -/
theorem post_push (h : Packed orig v i out) (hi : i < n) :
    Exec.Post A (Exec.store v out.length x) (fun v' => Packed orig v' (i + 1) (out ++ [x])) := by
  have hlen := h.length_le
  unfold Exec.store
  rw [dif_pos (hlen.trans_lt hi)]
  refine ⟨?_, ?_, ?_⟩
  · rw [List.length_append, List.length_singleton]
    omega
  · rw [List.length_append, List.length_singleton, take_set, h.front]
  · intro j hj
    rw [Vector.getElem?_set_ne _ (by omega)]
    exact h.rest j (by omega)

/-- The last entry at the front is dropped. -/
theorem pop (h : Packed orig v i (out ++ [y])) : Packed orig v i out := by
  have hlen := h.length_le
  have hfront := h.front
  rw [List.length_append, List.length_singleton] at hlen hfront
  refine ⟨by omega, ?_, h.rest⟩
  have htake := congrArg (List.take out.length) hfront
  rw [List.take_take, min_eq_left (Nat.le_succ _), List.take_left] at htake
  exact htake

end Packed

end Vostd
