/-
# Specifications of the node operations

Each operation of `Node.lean`, called at a position of a well-formed table,
returns what `Effect.lean` and `Grow.lean` describe, or refuses.  None of them
wraps the entry counter or touches a dead node.
-/
import Vostd.PageTable.Grow

namespace Vostd

open Exec Function

variable {P : Type}

/-- Accessing a live node. -/
theorem post_node_bind {α : Type} {A : Fault → Prop} {m : Mem P} {q : ℕ} {n : Node P}
    {f : Node P → Exec α} {Q : α → Prop} (h : m.nodes q = some n) (hf : Post A (f n) Q) :
    Post A (m.node q >>= f) Q := by
  simp only [Mem.node, h]
  exact hf

/-- The counter after an entry changed. -/
theorem Node.set_eq {n : Node P} {idx nr : ℕ} {e : Pte P} (hidx : n.slots.Contains idx)
    (hcount : n.nrChildren = n.presentCount)
    (hnr : nr + (if (n.entries idx).isPresent = true then 1 else 0) =
      n.nrChildren + (if e.isPresent = true then 1 else 0)) :
    { n with nrChildren := nr, entries := update n.entries idx e } = n.set idx e := by
  have hset := Node.presentCount_set hidx e
  have hn : nr = Node.countPresent n.slots (update n.entries idx e) := by
    rw [Node.presentCount, Node.set_slots, Node.set_entries] at hset
    omega
  rw [hn, Node.set]

/-- The counter does not wrap. -/
theorem post_updateNrChildren {A : Fault → Prop} {n : Node P} {idx : ℕ}
    (hidx : n.slots.Contains idx)
    (hcount : n.nrChildren = n.presentCount) (e : Pte P) :
    Post A (updateNrChildren n.nrChildren (n.entries idx) e)
      (fun nr => nr + (if (n.entries idx).isPresent = true then 1 else 0) =
        n.nrChildren + (if e.isPresent = true then 1 else 0)) := by
  unfold updateNrChildren
  cases hold : (n.entries idx).isPresent with
  | false =>
      have hlt := Node.presentCount_lt hidx hold
      cases e.isPresent with
      | false => simp
      | true => simp [incNrChildren, show n.nrChildren + 1 < 65536 from by omega]
  | true =>
      have hpos := Node.presentCount_pos hidx hold
      cases e.isPresent with
      | true => simp
      | false =>
          simp [decNrChildren, show 1 ≤ n.nrChildren from by omega]

/-- The faults of an allocation: there is no frame, or the frame is in use. -/
structure AllocFaults (A : Fault → Prop) (m : Mem P) : Prop where
  noMemory : A .noMemory
  pool : A .assertion ∨ m.PoolFresh

theorem Fault.Refusing.alloc {A : Fault → Prop} (hA : Fault.Refusing A) (m : Mem P) :
    AllocFaults A m :=
  ⟨hA.noMemory, Or.inl hA.assertion⟩

/-- `alloc` turns an unused frame into an empty node. -/
theorem post_alloc {A : Fault → Prop} {m : Mem P} (hA : AllocFaults A m)
    (cfg : PageTableConfig P) (level : ℕ) :
    Post A (m.alloc cfg level) (fun r => m.refCount r.1 = 0 ∧
      r.2.nodes = update m.nodes r.1 (some (Node.empty cfg level)) ∧
      r.2.refCount = update m.refCount r.1 1 ∧ m.pool = r.1 :: r.2.pool) := by
  unfold Mem.alloc
  cases hpool : m.pool with
  | nil => exact hA.noMemory
  | cons pa rest =>
      refine Post.bind (post_check (fun hused => hA.pool.resolve_right ?_)) ?_
      · intro hfresh
        exact hused (hfresh.unused pa (by rw [hpool]; exact List.mem_cons_self))
      intro _ hpa
      exact ⟨hpa, rfl, rfl, rfl⟩

/-- An allocation takes its frame out of the pool. -/
theorem alloc_poolFresh {m : Mem P} (h : m.PoolFresh) (cfg : PageTableConfig P) (level : ℕ) :
    Post (fun _ => True) (m.alloc cfg level) (fun r => r.2.PoolFresh) := by
  refine (post_alloc ⟨trivial, Or.inl trivial⟩ cfg level).mono ?_
  rintro r ⟨-, -, hrc, hpool⟩
  exact h.rest hpool hrc

section

variable {m : Mem P} {q idx : ℕ} {n : Node P} {A : Fault → Prop}

/-- `replace_child` overwrites the entry and returns the old one. -/
theorem post_replaceChild (h : WellFormed m) (hq : m.nodes q = some n)
    (hidx : n.slots.Contains idx) {new : Child P} (hnew : ∀ pa, new ≠ .pageTable pa)
    (hA : ∀ pa l prop, new = .frame pa l prop → A .assertion ∨ l = n.level) :
    Post A (replaceChild m q idx new) (fun r => r.1 = n.entries idx ∧
      r.2 = m.put q n idx new.intoPte ∧ ∀ pa l prop, new = .frame pa l prop → l = n.level) := by
  unfold replaceChild
  refine post_node_bind hq ?_
  have hlevel : Post A (checkChildLevel m n.level new)
      (fun _ => ∀ pa l prop, new = .frame pa l prop → l = n.level) := by
    cases new with
    | none =>
        intro pa l prop hc
        cases hc
    | frame pa l prop =>
        refine (post_check (fun hne => (hA pa l prop rfl).resolve_right hne)).mono ?_
        intro _ hl pa' l' prop' hc
        injection hc with _ hl' _
        rw [← hl', hl]
    | pageTable pa => exact absurd rfl (hnew pa)
  refine Post.bind hlevel ?_
  intro _ hl
  have hcount := (h.ok q n hq).count
  refine Post.bind (post_updateNrChildren hidx hcount _) ?_
  intro nr hnr
  refine ⟨rfl, ?_, hl⟩
  rw [Node.set_eq hidx hcount hnr, Mem.put]

/-- `alloc_absent_child` attaches an empty node. -/
theorem post_allocAbsentChild (hA : AllocFaults A m) (h : WellFormed m)
    (hq : m.nodes q = some n) (hidx : n.slots.Contains idx) (he : n.entries idx = .absent) :
    Post A (allocAbsentChild m q idx)
      (fun r => Attached m r.2 q idx r.1 n (Node.empty n.cfg (n.level - 1))) := by
  unfold allocAbsentChild
  refine post_node_bind hq ?_
  refine Post.bind (post_sub (fun hlt => absurd (h.ok q n hq).level_pos (not_le.mpr hlt))) ?_
  rintro _ ⟨rfl, hl⟩
  refine Post.bind (post_alloc hA _ _) ?_
  rintro ⟨pa, m₁⟩ ⟨hpa, hnodes, hrc, hpool⟩
  have hne : q ≠ pa := by
    rintro rfl
    exact (h.ok q n hq).alive hpa
  simp only at hnodes hrc
  have hq₁ : m₁.nodes q = some n := by
    rw [hnodes, update_of_ne hne, hq]
  refine post_node_bind hq₁ ?_
  have hcount := (h.ok q n hq).count
  have hlt := Node.presentCount_lt hidx (by rw [he]; rfl)
  have hinc : Post A (incNrChildren n.nrChildren)
      (fun nr => nr = n.nrChildren + 1) := by
    unfold incNrChildren
    rw [if_pos (by omega)]
    rfl
  refine Post.bind hinc ?_
  rintro _ rfl
  refine ⟨hpa, ?_, hrc, hpool⟩
  rw [Node.set_eq hidx hcount (by rw [he]; rfl)]
  simp only [Mem.setNode, hnodes]

/-- `alloc_if_none` attaches an empty node unless there is something already. -/
theorem post_allocIfNone (hA : AllocFaults A m) (h : WellFormed m) (hq : m.nodes q = some n)
    (hidx : n.slots.Contains idx) (he : n.entries idx = .absent) (hl : 2 ≤ n.level) :
    Post A (allocIfNone m q idx)
      (fun r => ∃ pa, r.1 = some pa ∧
        Attached m r.2 q idx pa n (Node.empty n.cfg (n.level - 1))) := by
  unfold allocIfNone
  refine post_node_bind hq ?_
  rw [he, if_neg (by simp; omega)]
  refine Post.bind (post_allocAbsentChild hA h hq hidx he) ?_
  rintro ⟨pa, m₁⟩ ha
  exact ⟨pa, rfl, ha⟩

/-- The loop that fills the node of a split page. -/
theorem post_fillSplit (n : Node P) (pa paddr : ℕ) (prop : P) (base : ℕ → Option (Node P))
    (m₁ : Mem P) (hl : 2 ≤ n.level)
    (hfit : A .overflow ∨ pa + pageSize n.level ≤ 2 ^ 64)
    (hnodes : m₁.nodes = update base paddr (some (n.splitUpTo pa prop 0))) :
    Post A
      (forRange (fun i m => do
          let smallPa ← Exec.add pa (i * pageSize (n.level - 1))
          replaceAbsentWithFrame m paddr i smallPa prop) 0 NR_ENTRIES m₁)
      (fun m => m.nodes = update base paddr (some (n.splitUpTo pa prop 512)) ∧
        m.refCount = m₁.refCount ∧ m.pool = m₁.pool) := by
  have hloop := post_forRange (A := A)
    (f := fun i m => do
      let smallPa ← Exec.add pa (i * pageSize (n.level - 1))
      replaceAbsentWithFrame m paddr i smallPa prop)
    (fun i m => m.nodes = update base paddr (some (n.splitUpTo pa prop i)) ∧
      m.refCount = m₁.refCount ∧ m.pool = m₁.pool) NR_ENTRIES 0 m₁ ⟨hnodes, rfl, rfl⟩ ?_
  · simpa [NR_ENTRIES] using hloop
  rintro i m - hi ⟨hm, hsame⟩
  -- the parts of the page end where the page ends
  have hend : i * pageSize (n.level - 1) < pageSize n.level := by
    have hsucc := pageSize_succ (show 1 ≤ n.level - 1 by omega)
    rw [Nat.sub_add_cancel (by omega)] at hsucc
    rw [hsucc]
    exact Nat.mul_lt_mul_of_pos_right (by simpa [NR_ENTRIES] using hi) (pageSize_pos _)
  refine Post.bind (post_add (fun hov => hfit.resolve_right (by omega))) ?_
  rintro _ ⟨rfl, -⟩
  unfold replaceAbsentWithFrame
  refine post_node_bind (n := n.splitUpTo pa prop i) (by rw [hm, update_self]) ?_
  have hinc : Post A (incNrChildren (n.splitUpTo pa prop i).nrChildren)
      (fun nr => nr = i + 1) := by
    unfold incNrChildren NR_ENTRIES at *
    rw [if_pos (by simp only [Node.splitUpTo]; omega)]
    rfl
  refine Post.bind hinc ?_
  rintro _ rfl
  refine ⟨?_, hsame⟩
  have hnode : ({ n.splitUpTo pa prop i with
      nrChildren := i + 1
      entries := update (n.splitUpTo pa prop i).entries i
        (.frame (pa + i * pageSize (n.level - 1)) prop) } : Node P) =
      n.splitUpTo pa prop (i + 1) := by
    simp only [Node.splitUpTo, Node.mk.injEq, true_and]
    funext j
    by_cases hj : j = i
    · subst hj
      rw [update_self, if_pos (Nat.lt_succ_self j)]
    · rw [update_of_ne hj]
      by_cases hji : j < i
      · rw [if_pos hji, if_pos (by omega)]
      · rw [if_neg hji, if_neg (by omega)]
  simp only [Mem.setNode, hm]
  rw [hnode, update_idem]

/-- `split_if_mapped_huge` attaches a node that translates as the huge page. -/
theorem post_splitIfMappedHuge (hA : AllocFaults A m) (h : WellFormed m)
    (hq : m.nodes q = some n) (hidx : n.slots.Contains idx) {pa : ℕ} {prop : P}
    (he : n.entries idx = .frame pa prop) (hl : 2 ≤ n.level)
    (hfit : A .overflow ∨ pa + pageSize n.level ≤ 2 ^ 64) :
    Post A (splitIfMappedHuge m q idx)
      (fun r => ∃ paddr, r.1 = some paddr ∧
        Attached m r.2 q idx paddr n (n.splitUpTo pa prop 512)) := by
  unfold splitIfMappedHuge
  refine post_node_bind hq ?_
  rw [he]
  simp only
  rw [if_pos (by omega)]
  refine Post.bind (post_alloc hA _ _) ?_
  rintro ⟨paddr, m₁⟩ ⟨hpa, hnodes, hrc, hpool⟩
  have hne : q ≠ paddr := by
    rintro rfl
    exact (h.ok q n hq).alive hpa
  refine Post.bind (post_fillSplit n pa paddr prop m.nodes m₁ hl hfit ?_) ?_
  · rw [hnodes]
    congr 2
  rintro m₂ ⟨hm₂, hr₂, hp₂⟩
  have hq₂ : m₂.nodes q = some n := by
    rw [hm₂, update_of_ne hne, hq]
  refine post_node_bind hq₂ ?_
  refine ⟨paddr, rfl, hpa, ?_, ?_, by rw [Mem.setNode, hp₂, hpool]⟩
  · have hset := Node.set_eq (e := .table paddr) hidx (h.ok q n hq).count (by rw [he]; rfl)
    rw [← hset]
    simp only [Mem.setNode, hm₂]
  · simp only [Mem.setNode_refCount]
    rw [hr₂, hrc]

/-- `protect_child` changes the property of a mapped frame. -/
theorem post_protectChild (h : WellFormed m) (hq : m.nodes q = some n)
    (hidx : n.slots.Contains idx) {pa : ℕ} {prop : P} (he : n.entries idx = .frame pa prop)
    (op : P → P) :
    Post A (protectChild m q idx op)
      (fun m' => m' = m.put q n idx (.frame pa (op prop))) := by
  unfold protectChild
  refine post_node_bind hq ?_
  rw [he]
  have hset := Node.set_eq (e := .frame pa (op prop)) hidx (h.ok q n hq).count (by rw [he]; rfl)
  simp only [post_ok, Mem.put]
  rw [← hset]

end

end Vostd
