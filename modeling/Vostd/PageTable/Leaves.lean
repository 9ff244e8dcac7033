/-
# Leaf entries

`LeafAt m cfg q i l pa prop` is a leaf of the memory: the managed entry `i` of the live
node `q`, of level `l`, maps the frame at `pa`.  This file says once how each step
on the memory changes the leaves: a new empty node and a stray mark change none, a
split replaces one leaf by 512 smaller ones, and overwriting an entry replaces one
leaf.

A property of pages that a huge page passes on to its parts is kept when a table grows
(`Grow.allLeaves`).  Two such properties are used: a mapped frame is aligned to its
size, and it ends inside the address space.
-/
import Vostd.PageTable.Replace

namespace Vostd

open Exec

variable {P : Type}

section

variable {m m' : Mem P} {cfg : PageTableConfig P} {root q idx : ℕ} {n : Node P}

/-- Leaves depend on the nodes only. -/
theorem leafAt_congr (h : m'.nodes = m.nodes) {p i l pa : ℕ} {prop : P} :
    LeafAt m' cfg p i l pa prop ↔ LeafAt m cfg p i l pa prop := by
  unfold LeafAt
  rw [h]

/-- Marking nodes does not touch leaves. -/
theorem MarkedBy.leafAt_iff {S : ℕ → Prop} (h : MarkedBy m m' S) {p i l pa : ℕ} {prop : P} :
    LeafAt m' cfg p i l pa prop ↔ LeafAt m cfg p i l pa prop := by
  constructor
  · rintro ⟨k', hk', hkc, hkl, hs, he⟩
    obtain ⟨k, hk, hc, hl, -, hent, -⟩ := h.of_some hk'
    exact ⟨k, hk, by rw [← hc, hkc], by rw [← hl, hkl], by rwa [← slots_eq hc hl], by rwa [← hent]⟩
  · rintro ⟨k, hk, hkc, hkl, hs, he⟩
    obtain ⟨k', hk', hc, hl, -, hent, -⟩ := h.some p k hk
    exact ⟨k', hk', by rw [hc, hkc], by rw [hl, hkl], by rwa [slots_eq hc hl], by rwa [hent]⟩

/-- Overwriting an entry touches the leaf of this entry only. -/
theorem leafAt_put (hq : m.nodes q = some n) (hs : n.slots.Contains idx) (e : Pte P)
    {p i l pa : ℕ} {prop : P} : LeafAt (m.put q n idx e) cfg p i l pa prop ↔
      if p = q ∧ i = idx then n.cfg = cfg ∧ n.level = l ∧ e = .frame pa prop
      else LeafAt m cfg p i l pa prop := by
  by_cases hp : p = q
  · subst hp
    have hput : (m.put p n idx e).nodes p = some (n.set idx e) := by
      rw [Mem.put, Mem.setNode_nodes_self]
    by_cases hi : i = idx
    · subst hi
      rw [if_pos ⟨rfl, rfl⟩]
      constructor
      · rintro ⟨k, hk, hkc, hkl, -, he⟩
        rw [hput] at hk
        obtain rfl := Option.some.inj hk
        rw [Node.set_entries, Function.update_self] at he
        exact ⟨by rw [← hkc, Node.set_cfg], by rw [← hkl, Node.set_level], he⟩
      · rintro ⟨rfl, rfl, rfl⟩
        refine ⟨_, hput, Node.set_cfg _ _ _, Node.set_level _ _ _, by rwa [Node.set_slots], ?_⟩
        rw [Node.set_entries, Function.update_self]
    · rw [if_neg (fun h => hi h.2)]
      unfold LeafAt
      rw [hput, hq]
      simp only [Option.some.injEq, exists_eq_left', Node.set_cfg, Node.set_level, Node.set_slots,
        Node.set_entries, Function.update_of_ne hi]
  · rw [if_neg (fun h => hp h.1)]
    unfold LeafAt
    rw [Mem.put, Mem.setNode_nodes_of_ne _ _ hp]

/-- The leaves after a node was attached: the old ones, except that of the entry,
and those of the new node. -/
theorem Attached.leafAt {pa : ℕ} {c : Node P} (ha : Attached m m' q idx pa n c)
    (hW : WellFormed m) (hq : m.nodes q = some n) {p i l fpa : ℕ} {prop : P} :
    LeafAt m' cfg p i l fpa prop ↔
      if p = pa then c.cfg = cfg ∧ c.level = l ∧ c.slots.Contains i ∧ c.entries i = .frame fpa prop
      else ¬(p = q ∧ i = idx) ∧ LeafAt m cfg p i l fpa prop := by
  have hne := ha.fresh hW hq
  by_cases hpa : p = pa
  · subst hpa
    rw [if_pos rfl]
    unfold LeafAt
    rw [ha.nodes_child hne.symm]
    simp only [Option.some.injEq, exists_eq_left']
  rw [if_neg hpa]
  by_cases hp : p = q
  · subst hp
    unfold LeafAt
    rw [ha.nodes_parent, hq]
    simp only [Option.some.injEq, exists_eq_left', Node.set_cfg, Node.set_level, Node.set_slots,
      Node.set_entries]
    by_cases hi : i = idx
    · subst hi
      simp only [Function.update_self, reduceCtorEq, and_false, not_true_eq_false, and_self,
        false_and]
    · simp only [Function.update_of_ne hi, hi, and_false, not_false_eq_true, true_and]
  · unfold LeafAt
    rw [ha.nodes_other hp hpa]
    simp only [hp, false_and, not_false_eq_true, true_and]

end

/-! ## Properties of all leaves -/

/-- All mapped frames have a property of the level and the physical address. -/
def Mem.AllLeaves (m : Mem P) (Φ : ℕ → ℕ → Prop) : Prop :=
  ∀ cfg q i l pa prop, LeafAt m cfg q i l pa prop → Φ l pa

/-- A huge page passes the property on to its parts. -/
def PassesToParts (Φ : ℕ → ℕ → Prop) : Prop :=
  ∀ l pa i, 1 ≤ l → i < 512 → Φ (l + 1) pa → Φ l (pa + i * pageSize l)

/-- The physical addresses of all mapped frames are aligned to the page size of
their level. -/
def Mem.Aligned (m : Mem P) : Prop :=
  ∀ cfg q i l pa prop, LeafAt m cfg q i l pa prop → pageSize l ∣ pa

/-- All mapped frames end at an address. -/
def Mem.Fits (m : Mem P) : Prop := m.AllLeaves (fun l pa => pa + pageSize l ≤ 2 ^ 64)

theorem passesToParts_dvd : PassesToParts (fun l pa => pageSize l ∣ pa) := by
  intro l pa i _ _ h
  exact Nat.dvd_add ((pageSize_dvd (Nat.le_succ l)).trans h) (Nat.dvd_mul_left _ _)

theorem passesToParts_fits : PassesToParts (fun l pa => pa + pageSize l ≤ 2 ^ 64) := by
  intro l pa i hl hi h
  have hmul : (i + 1) * pageSize l ≤ 512 * pageSize l := Nat.mul_le_mul_right _ hi
  rw [← pageSize_succ hl, Nat.add_mul, Nat.one_mul] at hmul
  show pa + i * pageSize l + pageSize l ≤ 2 ^ 64
  have h' : pa + pageSize (l + 1) ≤ 2 ^ 64 := h
  omega

section

variable {m m' : Mem P} {root : ℕ} {Φ : ℕ → ℕ → Prop}

theorem GrowStep.allLeaves (hg : GrowStep root m m') (hW : WellFormed m) (hΦ : PassesToParts Φ)
    (h : m.AllLeaves Φ) : m'.AllLeaves Φ := by
  intro cfg p i l pa prop hleaf
  cases hg with
  | alloc hp hl hs he ha =>
      rw [ha.leafAt hW hp.node] at hleaf
      split at hleaf
      · cases hleaf.2.2.2
      · exact h _ _ _ _ _ _ hleaf.2
  | @split va lv q pa' fpa prop' n hp hl hs he ha =>
      rw [ha.leafAt hW hp.node] at hleaf
      split at hleaf
      · obtain ⟨-, hlv, -, hent⟩ := hleaf
        have hold : Φ n.level fpa := h _ _ _ _ _ _ ⟨n, hp.node, rfl, rfl, hp.slot hW, he⟩
        have hnl := hp.level_eq hW
        simp only [Node.splitUpTo] at hent hlv
        split at hent
        · rename_i hi
          injection hent with hpa hprop
          rw [← hpa, hlv]
          rw [show n.level = l + 1 from by omega] at hold
          exact hΦ l fpa i (by omega) hi hold
        · cases hent
      · exact h _ _ _ _ _ _ hleaf.2

theorem Grow.allLeaves (hg : Grow root m m') (hW : WellFormed m) (hΦ : PassesToParts Φ)
    (h : m.AllLeaves Φ) : m'.AllLeaves Φ := by
  induction hg with
  | refl => exact h
  | tail hg' hstep ih => exact hstep.allLeaves (Grow.wellFormed hg' hW) hΦ ih

end

end Vostd
