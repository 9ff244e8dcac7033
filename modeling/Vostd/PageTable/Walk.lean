/-
# Walking a page table

`page_walk` of `page_table/mod.rs` and the node that a walk visits at each level.

`nodeAt m root a l` is the node of level `l` on the walk of `a` from `root`.  Two
kinds of facts are needed about it: a walk can be resumed at any node that it
visits (`pageWalk_eq_walkFrom`), and a walk only depends on the entries that it
reads (`nodeAt_eq_of_agree`, `pageWalk_eq_of_agree`).
-/
import Vostd.PageTable.Node

namespace Vostd

variable {P : Type} {m m' : Mem P} {l q a root : ℕ}

/-! ## The software page walk -/

/-- The part of `page_walk` that starts at a node of the given level. -/
def walkFrom (m : Mem P) : ℕ → ℕ → ℕ → Option (ℕ × P)
  | 0, _, _ => none
  | l + 1, q, va =>
      match m.entry q (pteIndex va (l + 1)) with
      | .absent => none
      | .frame pa prop => some (pa + (va &&& (pageSize (l + 1) - 1)), prop)
      | .table pa => walkFrom m l pa va

/-- `page_walk`. -/
def pageWalk (m : Mem P) (root va : ℕ) : Option (ℕ × P) := walkFrom m NR_LEVELS root va

/-- The offset of an address in its page. -/
theorem and_pageSize (a l : ℕ) : a &&& (pageSize l - 1) = a % pageSize l := by
  have hsize : pageSize l = 2 ^ (12 + nrPteIndexBits * (l - 1)) := by
    unfold pageSize PAGE_SIZE
    rw [Nat.shiftLeft_eq, pow_add]
    norm_num
  rw [hsize, Nat.and_two_pow_sub_one_eq_mod]

theorem walkFrom_absent (hl : 1 ≤ l)
    (h : m.entry q (pteIndex a l) = .absent) : walkFrom m l q a = none := by
  obtain ⟨k, rfl⟩ : ∃ k, l = k + 1 := ⟨l - 1, by omega⟩
  simp only [walkFrom, h]

theorem walkFrom_frame {pa : ℕ} {prop : P} (hl : 1 ≤ l)
    (h : m.entry q (pteIndex a l) = .frame pa prop) :
    walkFrom m l q a = some (pa + a % pageSize l, prop) := by
  obtain ⟨k, rfl⟩ : ∃ k, l = k + 1 := ⟨l - 1, by omega⟩
  simp only [walkFrom, h, and_pageSize]

theorem walkFrom_table {c : ℕ} (hl : 1 ≤ l) (h : m.entry q (pteIndex a l) = .table c) :
    walkFrom m l q a = walkFrom m (l - 1) c a := by
  obtain ⟨k, rfl⟩ : ∃ k, l = k + 1 := ⟨l - 1, by omega⟩
  simp only [walkFrom, h, Nat.add_sub_cancel]

/-! ## The nodes of a walk -/

/-- The node that the walk of `a` reaches after `d` steps. -/
def nodeAtDepth (m : Mem P) (root a : ℕ) : ℕ → Option ℕ
  | 0 => some root
  | d + 1 => (nodeAtDepth m root a d).bind (fun q => (m.entry q (pteIndex a (4 - d))).node?)

/-- The node of level `l` on the walk of `a`. -/
def nodeAt (m : Mem P) (root a l : ℕ) : Option ℕ := nodeAtDepth m root a (NR_LEVELS - l)

@[simp] theorem nodeAt_four (m : Mem P) (root a : ℕ) : nodeAt m root a 4 = some root := rfl

/-- One step down the walk. -/
theorem nodeAt_succ (m : Mem P) (root a : ℕ) (h4 : l < 4) :
    nodeAt m root a l =
      (nodeAt m root a (l + 1)).bind (fun q => (m.entry q (pteIndex a (l + 1))).node?) := by
  unfold nodeAt NR_LEVELS
  obtain ⟨d, hd⟩ : ∃ d, 4 - l = d + 1 := ⟨3 - l, by omega⟩
  rw [hd, nodeAtDepth, show 4 - (l + 1) = d from by omega, show 4 - d = l + 1 from by omega]

/-- The step down, read as a relation. -/
theorem nodeAt_eq_some_iff (h4 : l < 4) :
    nodeAt m root a l = some q ↔
      ∃ p, nodeAt m root a (l + 1) = some p ∧ m.entry p (pteIndex a (l + 1)) = .table q := by
  rw [nodeAt_succ m root a h4, Option.bind_eq_some_iff]
  simp only [Pte.node?_eq_some]

theorem nodeAt_step {p : ℕ} (hl : 1 ≤ l) (h4 : l ≤ 4)
    (hp : nodeAt m root a l = some p) (he : m.entry p (pteIndex a l) = .table q) :
    nodeAt m root a (l - 1) = some q := by
  rw [nodeAt_eq_some_iff (by omega)]
  exact ⟨p, by rwa [Nat.sub_add_cancel hl], by rwa [Nat.sub_add_cancel hl]⟩

/-- A walk visits every level above one that it visits. -/
theorem nodeAt_above {k : ℕ} (hk : l ≤ k) (h4 : k ≤ 4)
    (h : nodeAt m root a l = some q) : ∃ p, nodeAt m root a k = some p := by
  induction k, hk using Nat.le_induction with
  | base => exact ⟨q, h⟩
  | succ k hk ih =>
      obtain ⟨p, hp⟩ := ih (by omega)
      obtain ⟨p', hp', -⟩ := (nodeAt_eq_some_iff (by omega)).mp hp
      exact ⟨p', hp'⟩

/-- Addresses that share the slot above visit the same node. -/
theorem nodeAt_congr {b : ℕ} (h4 : l ≤ 4)
    (hab : slotNo (l + 1) a = slotNo (l + 1) b) : nodeAt m root a l = nodeAt m root b l := by
  induction h4 using Nat.decreasingInduction with
  | self => rfl
  | of_succ k hk ih =>
      obtain ⟨hup, hidx⟩ := (slotNo_eq_iff (by omega) (by omega) a b).mp hab
      rw [nodeAt_succ m root a (by omega), nodeAt_succ m root b (by omega), ih hup, hidx]

/-- A walk can be resumed at any node that it visits. -/
theorem pageWalk_eq_walkFrom (h4 : l ≤ 4)
    (hq : nodeAt m root a l = some q) : pageWalk m root a = walkFrom m l q a := by
  induction h4 using Nat.decreasingInduction generalizing q with
  | self =>
      rw [nodeAt_four] at hq
      obtain rfl := Option.some.inj hq
      rfl
  | of_succ k hk ih =>
      obtain ⟨p, hp, he⟩ := (nodeAt_eq_some_iff (by omega)).mp hq
      rw [ih hp, walkFrom_table (by omega) he, Nat.add_sub_cancel]

/-! ## A walk depends on the entries it reads -/

/-- Two memories agree on the entries that the walk of `a` reads at level `l`. -/
def AgreeAt (m m' : Mem P) (root a l : ℕ) : Prop :=
  ∀ q, nodeAt m root a l = some q → m'.entry q (pteIndex a l) = m.entry q (pteIndex a l)

theorem nodeAt_eq_of_agree (h4 : l ≤ 4) (h : ∀ k, l < k → k ≤ 4 → AgreeAt m m' root a k) :
    nodeAt m' root a l = nodeAt m root a l := by
  induction h4 using Nat.decreasingInduction with
  | self => rfl
  | of_succ k hk ih =>
      rw [nodeAt_succ m' root a (by omega), nodeAt_succ m root a (by omega),
        ih (fun j hj hj4 => h j (by omega) hj4)]
      cases hq : nodeAt m root a (k + 1) with
      | none => rfl
      | some q =>
          simp only [Option.bind_some]
          rw [h (k + 1) (by omega) (by omega) q hq]

theorem walkFrom_eq_of_agree (h4 : l ≤ 4) (hq : nodeAt m root a l = some q)
    (h : ∀ k, 1 ≤ k → k ≤ l → AgreeAt m m' root a k) :
    walkFrom m' l q a = walkFrom m l q a := by
  induction l generalizing q with
  | zero => rfl
  | succ k ih =>
      have he := h (k + 1) (by omega) le_rfl q hq
      cases hm : m.entry q (pteIndex a (k + 1)) with
      | absent =>
          rw [walkFrom_absent (by omega) hm, walkFrom_absent (by omega) (he.trans hm)]
      | frame pa prop =>
          rw [walkFrom_frame (by omega) hm, walkFrom_frame (by omega) (he.trans hm)]
      | table p =>
          rw [walkFrom_table (by omega) hm, walkFrom_table (by omega) (he.trans hm)]
          exact ih (by omega) (nodeAt_step (by omega) h4 hq hm)
            (fun j hj hjk => h j hj (by omega))

theorem pageWalk_eq_of_agree (h : ∀ k, 1 ≤ k → k ≤ 4 → AgreeAt m m' root a k) :
    pageWalk m' root a = pageWalk m root a :=
  walkFrom_eq_of_agree le_rfl (nodeAt_four m root a) h

end Vostd
