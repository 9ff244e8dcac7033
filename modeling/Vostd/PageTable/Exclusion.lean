/-
# The locking protocol excludes

`lock_range` locks the subtree root that covers its range and every node below it
that covers a part of the range (`Opened.mem_iff`).  If two ranges meet in an
address, the subtree root of the one that goes deeper covers this address, so it
is a node that the other one locks too: the two locked sets have a common node,
and the holders exclude each other.

While a cursor works, the nodes that it can reach inside its range are those that
it locked in the beginning and those that it made itself (which are locked when
they are made).
-/
import Vostd.Lib.Locks
import Vostd.PageTable.OpEffect

namespace Vostd

open Exec

variable {P : Type}

/-! ## The common node -/

section

variable {m : Mem P} {cfg : PageTableConfig P} {root : ℕ} {r r' : AddrRange} {c c' : Cursor}
  {locked locked' : List ℕ}

/-- The subtree root of a range is locked by every range that meets it and starts
from the same level or a higher one. -/
theorem Opened.exists_common_of_le (ho : Opened m cfg root r c locked)
    (ho' : Opened m cfg root r' c' locked') {a : ℕ} (ha : r.Contains a) (ha' : r'.Contains a)
    (hle : c.guardLevel ≤ c'.guardLevel) : ∃ p, p ∈ locked ∧ p ∈ locked' := by
  obtain ⟨q, hq, hat⟩ := ho.root_mem
  have hlp := ho.cursor.level_pos
  have hlg := ho.cursor.level_le
  refine ⟨q, List.mem_of_mem_head? hq, (ho'.mem_iff q).mpr ?_⟩
  exact ⟨a, c.guardLevel, ha', by omega, hle, hat a ha⟩

/-- **Two ranges that meet lock a common node.** -/
theorem Opened.exists_common (ho : Opened m cfg root r c locked)
    (ho' : Opened m cfg root r' c' locked') {a : ℕ} (ha : r.Contains a) (ha' : r'.Contains a) :
    ∃ p, p ∈ locked ∧ p ∈ locked' := by
  rcases Nat.le_total c.guardLevel c'.guardLevel with hle | hle
  · exact ho.exists_common_of_le ho' ha ha' hle
  · obtain ⟨p, hp, hp'⟩ := ho'.exists_common_of_le ho ha' ha hle
    exact ⟨p, hp', hp⟩

end

/-! ## New nodes -/

/-- From `m` to `m'`, an entry that points to a node did so before, or the node is
new. -/
structure OnlyNewChildren (m m' : Mem P) : Prop where
  live : ∀ p, m'.nodes p = none → m.nodes p = none
  entry : ∀ p i c, m'.entry p i = .table c → m.entry p i = .table c ∨ m.nodes c = none

namespace OnlyNewChildren

variable {m m' m'' : Mem P}

theorem refl (m : Mem P) : OnlyNewChildren m m := ⟨fun _ h => h, fun _ _ _ h => Or.inl h⟩

theorem trans (h : OnlyNewChildren m m') (h' : OnlyNewChildren m' m'') :
    OnlyNewChildren m m'' where
  live := fun p hp => h.live p (h'.live p hp)
  entry := by
    intro p i c hc
    rcases h'.entry p i c hc with hc' | hc'
    · exact h.entry p i c hc'
    · exact Or.inr (h.live c hc')

theorem of_nodes (h : m'.nodes = m.nodes) : OnlyNewChildren m m' where
  live := fun p hp => by rwa [h] at hp
  entry := by
    intro p i c hc
    unfold Mem.entry at hc ⊢
    rw [h] at hc
    exact Or.inl hc

/-- A walk comes to nodes that it came to before, or to new ones. -/
theorem nodeAt (h : OnlyNewChildren m m') {root x l p : ℕ} (h4 : l ≤ 4)
    (hp : nodeAt m' root x l = some p) : Vostd.nodeAt m root x l = some p ∨ m.nodes p = none := by
  induction h4 using Nat.decreasingInduction generalizing p with
  | self => exact Or.inl hp
  | of_succ j hj ih =>
      obtain ⟨q, hq, he⟩ := (nodeAt_eq_some_iff (by omega)).mp hp
      rcases h.entry q _ p he with hold | hnew
      · rcases ih hq with hq' | hq'
        · exact Or.inl ((nodeAt_eq_some_iff (by omega)).mpr ⟨q, hq', hold⟩)
        · -- what is no node has no entries
          simp only [Mem.entry, hq'] at hold
          cases hold
      · exact Or.inr hnew

end OnlyNewChildren

section

variable {m m' : Mem P} {cfg : PageTableConfig P} {root q idx : ℕ} {n : Node P} {c c' : Cursor}

theorem MarkedBy.onlyNewChildren {S : ℕ → Prop} (h : MarkedBy m m' S) : OnlyNewChildren m m' where
  live := by
    intro p hp
    cases hk : m.nodes p with
    | none => rfl
    | some k =>
        obtain ⟨k', hk', -⟩ := h.some p k hk
        rw [hp] at hk'
        cases hk'
  entry := fun p i c hc => Or.inl (by rwa [h.entry_eq] at hc)

theorem onlyNewChildren_put (hq : m.nodes q = some n) {e : Pte P} (he : e.node? = none) :
    OnlyNewChildren m (m.put q n idx e) where
  live := by
    intro p hp
    cases hk : m.nodes p with
    | none => rfl
    | some k =>
        obtain ⟨k', hk', -⟩ := Mem.put_nodes_of idx e hq hk
        rw [hp] at hk'
        cases hk'
  entry := by
    intro p i d hd
    cases hk : (m.put q n idx e).nodes p with
    | none =>
        simp only [Mem.entry, hk] at hd
        cases hd
    | some k =>
        rw [Mem.entry_eq hk] at hd
        rcases Mem.put_nodes_cases hk with ⟨rfl, rfl⟩ | ⟨-, hk'⟩
        · rw [Node.set_entries] at hd
          rcases update_eq_cases hd with ⟨rfl, heq⟩ | ⟨hi, hd⟩
          · rw [heq] at he
            cases he
          · exact Or.inl (by rw [Mem.entry_eq hq, hd])
        · exact Or.inl (by rw [Mem.entry_eq hk', hd])

theorem Attached.onlyNewChildren {pa : ℕ} {k : Node P} (ha : Attached m m' q idx pa n k)
    (hW : WellFormed m) (hq : m.nodes q = some n) (hk : ∀ i d, k.entries i ≠ .table d) :
    OnlyNewChildren m m' where
  live := by
    intro p hp
    cases hj : m.nodes p with
    | none => rfl
    | some j =>
        obtain ⟨j', hj', -⟩ := ha.nodes_of hW hq hj
        rw [hp] at hj'
        cases hj'
  entry := by
    intro p i d hd
    cases hj : m'.nodes p with
    | none =>
        simp only [Mem.entry, hj] at hd
        cases hd
    | some j =>
        rw [Mem.entry_eq hj] at hd
        rcases ha.nodes_cases hj with ⟨rfl, rfl⟩ | ⟨-, -, rfl⟩ | ⟨-, -, hj'⟩
        · rw [Node.set_entries] at hd
          rcases update_eq_cases hd with ⟨rfl, heq⟩ | ⟨hi, hd⟩
          · injection heq with heq
            subst heq
            right
            by_contra hne
            obtain ⟨j, hj⟩ := Option.ne_none_iff_exists'.mp hne
            exact ha.fresh hW hj rfl
          · exact Or.inl (by rw [Mem.entry_eq hq, hd])
        · exact absurd hd (hk i d)
        · exact Or.inl (by rw [Mem.entry_eq hj', hd])

theorem GrowStep.onlyNewChildren (hg : GrowStep root m m') (hW : WellFormed m) :
    OnlyNewChildren m m' := by
  cases hg with
  | alloc hp hl hs he ha =>
      have hnl := hp.level_eq hW
      exact ha.onlyNewChildren hW hp.node (attachable_empty (by omega) hs).noTable
  | split hp hl hs he ha =>
      have hnl := hp.level_eq hW
      have hn := hW.ok _ _ hp.node
      exact ha.onlyNewChildren hW hp.node
        (attachable_split (by omega) hn.level_le hs (hn.leaf _ _ _ (hp.slot hW) he)).noTable

theorem Grow.onlyNewChildren (hg : Grow root m m') (hW : WellFormed m) : OnlyNewChildren m m' := by
  induction hg with
  | refl => exact OnlyNewChildren.refl _
  | tail hg' hstep ih => exact ih.trans (hstep.onlyNewChildren (Grow.wellFormed hg' hW))

theorem Overwrites.onlyNewChildren {e : Pte P} (ho : Overwrites m m' cfg root c c' e q n) :
    OnlyNewChildren m m' :=
  (onlyNewChildren_put ho.slot.position.node ho.leaf).trans ho.replaced.marked.onlyNewChildren

theorem onlyNewChildren_perform (hW : WellFormed m) (h : CursorOK m cfg root c) (op : Op cfg) :
    Post Fault.IsPanic (c.perform cfg m op) (fun r => OnlyNewChildren m r.2.1) := by
  refine (effect_perform hW h op).mono ?_
  rintro ⟨res, m', c'⟩ heff
  simp only at heff
  cases heff with
  | idle hg _ => exact hg.onlyNewChildren hW
  | overwrite hg ho _ => exact (hg.onlyNewChildren hW).trans ho.onlyNewChildren
  | clone hnodes _ _ => exact OnlyNewChildren.of_nodes hnodes

theorem onlyNewChildren_runOps (ops : List (Op cfg)) : ∀ (m : Mem P) (c : Cursor), WellFormed m →
    CursorOK m cfg root c →
    Post Fault.IsPanic (c.runOps cfg ops m) (fun r => OnlyNewChildren m r.2.1) := by
  induction ops with
  | nil =>
      intro m c _ _
      exact OnlyNewChildren.refl m
  | cons op ops ih =>
      intro m c hW h
      rw [Cursor.runOps]
      refine Post.bind ((refines_perform hW h op).and (onlyNewChildren_perform hW h op)) ?_
      rintro ⟨r, m₁, c₁⟩ ⟨⟨hstep, -⟩, hnew⟩
      refine Post.bind (ih m₁ c₁ hstep.wellFormed hstep.cursor) ?_
      intro res hres
      exact hnew.trans hres

end

/-! ## The protocol -/

/-- What a cursor on the range `r` has locked: the subtree root, and every node
below it that covers a part of the range.  Later, the nodes that it can come to
are these and new ones. -/
structure LocksRange (m : Mem P) (cfg : PageTableConfig P) (root : ℕ) (r : AddrRange) (c : Cursor)
    (locked : List ℕ) : Prop where
  subtreeRoot : ∃ q, locked.head? = some q ∧ ∀ a, r.Contains a →
    nodeAt m root a c.guardLevel = some q
  covering : ∀ a l p, r.Contains a → 1 ≤ l → l ≤ c.guardLevel → nodeAt m root a l = some p →
    p ∈ locked
  later : ∀ ops : List (Op cfg), Post Fault.IsPanic (c.runOps cfg ops m) (fun res =>
    (∀ a l p, r.Contains a → 1 ≤ l → l ≤ c.guardLevel → nodeAt res.2.1 root a l = some p →
      p ∈ locked ∨ m.nodes p = none) ∧
    ∀ l p, res.2.2.level ≤ l → res.2.2.path (l - 1) = some p → p ∈ locked ∨ m.nodes p = none)

section

variable {m : Mem P} {cfg : PageTableConfig P} {root : ℕ} {r : AddrRange} {c : Cursor}
  {locked : List ℕ}

theorem Opened.locksRange (ho : Opened m cfg root r c locked) (hW : WellFormed m) :
    LocksRange m cfg root r c locked where
  subtreeRoot := ho.root_mem
  covering := fun a l p ha hl hg hp => (ho.mem_iff p).mpr ⟨a, l, ha, hl, hg, hp⟩
  later := by
    intro ops
    refine ((refines_runOps ops m c hW ho.cursor).and
      (onlyNewChildren_runOps ops m c hW ho.cursor)).mono ?_
    rintro ⟨rs, m', c'⟩ ⟨⟨hstep, -⟩, hnew⟩
    simp only at hstep hnew ⊢
    have hg := ho.cursor.guard_le
    have hwalk : ∀ a l p, r.Contains a → 1 ≤ l → l ≤ c.guardLevel → nodeAt m' root a l = some p →
        p ∈ locked ∨ m.nodes p = none := by
      intro a l p ha hl hlg hp
      refine (hnew.nodeAt (by omega) hp).imp_left ?_
      intro hp'
      exact (ho.mem_iff p).mpr ⟨a, l, ha, hl, hlg, hp'⟩
    refine ⟨hwalk, ?_⟩
    -- the path is a stretch of the walk of an address in the range
    intro l p hl hp
    have hpos := hstep.cursor.level_pos
    have hlg : l ≤ c'.guardLevel := by
      by_contra hlt
      rw [hstep.cursor.above l (by omega)] at hp
      cases hp
    obtain ⟨x, hx, hpath, -⟩ := hstep.cursor.anchor
    obtain ⟨q, hq, hat⟩ := hpath l hl hlg
    rw [hp] at hq
    obtain rfl := Option.some.inj hq
    rw [hstep.same.barrierVa, ho.barrierVa] at hx
    rw [hstep.same.guardLevel] at hlg
    exact hwalk x l p hx (by omega) hlg hat

/-- **Mutual exclusion of cursors.**  Two cursors whose ranges meet, opened on one
tree, lock a common node; so threads that take the two locked sets never both have
them.  And each locked set contains every node that covers a part of its range. -/
theorem overlapping_cursors_exclude {r' : AddrRange} {c' : Cursor} {locked' : List ℕ}
    (hW : WellFormed m) (hroot : IsRoot m cfg root)
    (hnew : Cursor.new cfg m root r = .ok (.ok (c, locked), m))
    (hnew' : Cursor.new cfg m root r' = .ok (.ok (c', locked'), m))
    (hmeet : ∃ a, r.Contains a ∧ r'.Contains a) :
    (∃ p, p ∈ locked ∧ p ∈ locked') ∧
      (∀ s : Locks ℕ ℕ, Locks.system.Reachable s → ∀ t t', t ≠ t' → s.Complete t locked →
        ¬s.Complete t' locked') ∧
      LocksRange m cfg root r c locked ∧ LocksRange m cfg root r' c' locked' := by
  obtain ⟨-, ho⟩ := opened_of_new hW hroot hnew
  obtain ⟨-, ho'⟩ := opened_of_new hW hroot hnew'
  obtain ⟨a, ha, ha'⟩ := hmeet
  obtain ⟨p, hp, hp'⟩ := ho.exists_common ho' ha ha'
  refine ⟨⟨p, hp, hp'⟩, ?_, ho.locksRange hW, ho'.locksRange hW⟩
  intro s hs t t' hne hc
  exact Locks.exclusive hs hne hp hp' hc

/-- A new user table on which a cursor was opened once, so that its nodes exist. -/
def openSample : Exec (Except PageTableError (Cursor × List ℕ) × Mem Unit) := do
  let (root, m) ← emptyTable (userPtConfig 2 two_le_four) (freshMem [4096, 8192, 12288, 16384])
  Cursor.new (userPtConfig 2 two_le_four) m root ⟨0, 4096⟩

/-- Its memory. -/
def openSampleMem : Mem Unit :=
  match openSample with
  | .ok (_, m) => m
  | .error _ => freshMem []

theorem openSampleMem_ok : WellFormed openSampleMem ∧
    IsRoot openSampleMem (userPtConfig 2 (by decide)) 4096 := by
  have hopen : ∃ c locked, openSample = .ok (.ok (c, locked), openSampleMem) := ⟨_, _, rfl⟩
  obtain ⟨c, locked, hopen⟩ := hopen
  obtain ⟨⟨root, m⟩, hm, hnew⟩ := bind_eq_ok.mp hopen
  obtain ⟨-, hW, hroot⟩ := (post_emptyTable (wellFormed_of_no_nodes (fun _ => rfl)) _).of_ok hm
  obtain ⟨hg, ho⟩ := opened_of_new hW hroot hnew
  have h4096 : root = 4096 := by
    cases hm
    rfl
  rw [h4096] at ho
  exact ⟨hg.wellFormed hW, ho.cursor.isRoot⟩

/-- A page and a range that reaches into the next node above it: their subtree roots
are at different levels. -/
theorem overlapping_cursors_sample : ∃ c locked c' locked',
    Cursor.new (userPtConfig 2 (by decide)) openSampleMem 4096 ⟨0, 4096⟩ =
      .ok (.ok (c, locked), openSampleMem) ∧
    Cursor.new (userPtConfig 2 (by decide)) openSampleMem 4096 ⟨0, 2 ^ 21 + 4096⟩ =
      .ok (.ok (c', locked'), openSampleMem) ∧
    c.guardLevel ≠ c'.guardLevel ∧ ∃ p, p ∈ locked ∧ p ∈ locked' := by
  have hnew : ∃ c locked, Cursor.new (userPtConfig 2 (by decide)) openSampleMem 4096 ⟨0, 4096⟩ =
      .ok (.ok (c, locked), openSampleMem) ∧ c.guardLevel = 1 := ⟨_, _, rfl, rfl⟩
  have hnew' : ∃ c locked, Cursor.new (userPtConfig 2 (by decide)) openSampleMem 4096
      ⟨0, 2 ^ 21 + 4096⟩ = .ok (.ok (c, locked), openSampleMem) ∧ c.guardLevel = 2 :=
    ⟨_, _, rfl, rfl⟩
  obtain ⟨c, locked, hnew, hg⟩ := hnew
  obtain ⟨c', locked', hnew', hg'⟩ := hnew'
  refine ⟨c, locked, c', locked', hnew, hnew', by omega, ?_⟩
  exact (overlapping_cursors_exclude openSampleMem_ok.1 openSampleMem_ok.2 hnew hnew'
    ⟨0, by decide, by decide⟩).1

end

end Vostd
