/-
# Locking a range

`lock_range` of `cursor/locking.rs`.  It first walks down without locks to the
lowest node that still spans the whole range, making missing nodes on the way
(`try_traverse_and_lock_subtree_root`), and locks it.  Then it locks, in
depth-first order, every node below that covers a part of the range
(`dfs_acquire_lock`).  The model returns the list of the locked nodes in the
order of locking, the subtree root first.
-/
import Vostd.PageTable.CursorOps

namespace Vostd

open Exec

variable {P : Type}

/-! ## The code -/

/-- The descent of `try_traverse_and_lock_subtree_root` from a node of the given
level.  `none` stands for a stray node: the caller tries again. -/
def traverse (r : AddrRange) : ℕ → Mem P → ℕ → Exec (Option ℕ × Mem P)
  | 0, m, q => .ok (some q, m)
  | l + 1, m, q =>
      let startIdx := pteIndex r.start (l + 1)
      let endIdx := pteIndex (r.stop - 1) (l + 1)
      if 1 < l + 1 ∧ startIdx = endIdx then do
        let n ← m.node q
        match n.entries startIdx with
        | .frame _ _ => .ok (some q, m)
        | .table pt => traverse r l m pt
        | .absent => do
            -- the node is locked and the entry read again
            let n ← m.node q
            if n.stray then .ok (none, m)
            else
              match n.entries startIdx with
              | .absent => do
                  let (child, m) ← allocIfNone m q startIdx
                  let child ← Exec.unwrap child
                  traverse r l m child
              | .table pt => traverse r l m pt
              | .frame _ _ => .ok (some q, m)
      else .ok (some q, m)

/-- `try_traverse_and_lock_subtree_root`. -/
def tryTraverseAndLockSubtreeRoot (m : Mem P) (root : ℕ) (r : AddrRange) :
    Exec (Option ℕ × Mem P) := do
  let (found, m) ← traverse r NR_LEVELS m root
  match found with
  | none => .ok (none, m)
  | some q => do
      let n ← m.node q
      if n.stray then .ok (none, m) else .ok (some q, m)

/-- `dfs_get_idx_range`: the entries of a node that cover a part of the range. -/
def dfsGetIdxRange (level nodeVa : ℕ) (r : AddrRange) : Exec AddrRange := do
  let ps := pageSize level
  let diff ← Exec.sub r.stop nodeVa
  let offset ← Exec.sub r.start nodeVa
  let rounded ← Exec.add diff (ps - 1)
  .ok ⟨offset / ps, rounded / ps⟩

/-- `dfs_acquire_lock`: the nodes that are locked below a node.  The first argument
bounds the depth. -/
def dfsAcquireLock : ℕ → Mem P → ℕ → ℕ → AddrRange → Exec (List ℕ)
  | 0, _, _, _, _ => .error .outOfFuel
  | fuel + 1, m, q, nodeVa, r => do
      let n ← m.node q
      if n.level = 1 then .ok []
      else do
        let idx ← dfsGetIdxRange n.level nodeVa r
        Exec.forRange (fun i locked =>
            match n.entries i with
            | .table pt => do
                let childVa ← Exec.add nodeVa (i * pageSize n.level)
                let childVaEnd ← Exec.add childVa (pageSize n.level)
                let below ← dfsAcquireLock fuel m pt childVa
                  ⟨max r.start childVa, min r.stop childVaEnd⟩
                .ok (locked ++ pt :: below)
            | _ => .ok locked) idx.start (idx.stop - idx.start) []

/-- The retry loop of `lock_range`. -/
def lockSubtreeRoot (root : ℕ) (r : AddrRange) : ℕ → Mem P → Exec (ℕ × Mem P)
  | 0, _ => .error .outOfFuel
  | fuel + 1, m => do
      let (found, m) ← tryTraverseAndLockSubtreeRoot m root r
      match found with
      | some q => .ok (q, m)
      | none => lockSubtreeRoot root r fuel m

/-- `lock_range`: the cursor, and the nodes that it has locked. -/
def lockRange (m : Mem P) (root : ℕ) (r : AddrRange) : Exec ((Cursor × List ℕ) × Mem P) := do
  let (q, m) ← lockSubtreeRoot root r 1 m
  let n ← m.node q
  let guardLevel := n.level
  let curNodeVa := alignDown r.start (pageSize (guardLevel + 1))
  let below ← dfsAcquireLock NR_LEVELS m q curNodeVa r
  let c : Cursor :=
    { path := Function.update (fun _ => none) (guardLevel - 1) (some q)
      level := guardLevel
      guardLevel := guardLevel
      va := r.start
      barrierVa := r }
  .ok ((c, q :: below), m)

/-- `Cursor::new`. -/
def Cursor.new (cfg : PageTableConfig P) (m : Mem P) (root : ℕ) (r : AddrRange) :
    Exec (Except PageTableError (Cursor × List ℕ) × Mem P) :=
  if !cfg.isValidRange r || decide (r.stop ≤ r.start) then
    .ok (.error (.invalidVaddrRange r.start r.stop), m)
  else if r.start % PAGE_SIZE ≠ 0 ∨ r.stop % PAGE_SIZE ≠ 0 then
    .ok (.error .unalignedVaddr, m)
  else do
    let (res, m) ← lockRange m root r
    .ok (.ok res, m)

/-! ## The descent -/

/-- A range that lies in one slot lies in one page of the slot's size. -/
theorem div_pageSize_of_index {l a b : ℕ} (hl : 1 ≤ l)
    (hup : a / pageSize (l + 1) = b / pageSize (l + 1)) (hidx : pteIndex a l = pteIndex b l) :
    a / pageSize l = b / pageSize l := by
  rw [pageSize_succ hl, Nat.mul_comm, ← Nat.div_div_eq_div_mul, ← Nat.div_div_eq_div_mul] at hup
  rw [pteIndex_eq, pteIndex_eq] at hidx
  omega

/-- What the descent has established at a node: it is on the walk of the start of
the range, and the range lies in its span. -/
structure Spans (m : Mem P) (cfg : PageTableConfig P) (root : ℕ) (r : AddrRange) (l q : ℕ) :
    Prop where
  isRoot : IsRoot m cfg root
  level_pos : 1 ≤ l
  level_le : l ≤ 4
  nodeAt : nodeAt m root r.start l = some q
  span : ∀ a, r.Contains a → a / pageSize (l + 1) = r.start / pageSize (l + 1)

section

variable {m m' : Mem P} {cfg : PageTableConfig P} {root : ℕ} {r : AddrRange} {l q : ℕ}

theorem Spans.node (h : Spans m cfg root r l q) (hW : WellFormed m)
    (hm : cfg.Managed r.start) : ∃ n, Position m root r.start l q n ∧ n.level = l ∧
      n.slots.Contains (pteIndex r.start l) ∧ n.stray = false ∧ n.cfg = cfg := by
  have hcov := h.isRoot.covers hm
  obtain ⟨k, hk, hkl, hkc, hks⟩ := h.isRoot
  obtain ⟨k', hk', hkl', hslot⟩ := hcov
  rw [hk] at hk'
  obtain rfl := Option.some.inj hk'
  obtain ⟨n, hn, hnl, hns, hnc, hnst⟩ := hW.reach hk hkl hslot h.level_pos h.level_le h.nodeAt
  exact ⟨n, ⟨⟨k, hk, hkl, hslot⟩, h.level_pos, h.level_le, h.nodeAt, hn⟩, hnl, hns,
    by rw [hnst, hks], by rw [hnc, hkc]⟩

/-- The step of the descent into a child. -/
theorem Spans.down {child : ℕ} (h : Spans m cfg root r (l + 1) q) (hl : 1 ≤ l)
    (hidx : pteIndex r.start (l + 1) = pteIndex (r.stop - 1) (l + 1))
    (hroot' : IsRoot m' cfg root) (hq' : Vostd.nodeAt m' root r.start (l + 1) = some q)
    (he : m'.entry q (pteIndex r.start (l + 1)) = .table child) :
    Spans m' cfg root r l child where
  isRoot := hroot'
  level_pos := hl
  level_le := by
    have := h.level_le
    omega
  nodeAt := nodeAt_step (by omega) h.level_le hq' he
  span := by
    intro a ha
    have hlast : r.Contains (r.stop - 1) := by
      obtain ⟨h1, h2⟩ := ha
      exact ⟨by omega, by omega⟩
    have hend := div_pageSize_of_index (by omega) (h.span _ hlast) hidx.symm
    -- between two addresses of one page there is only this page
    have h1 : r.start / pageSize (l + 1) ≤ a / pageSize (l + 1) := Nat.div_le_div_right ha.1
    have h2 : a / pageSize (l + 1) ≤ (r.stop - 1) / pageSize (l + 1) :=
      Nat.div_le_div_right (by have := ha.2; omega)
    omega

/-- The levels at which a range can be locked: the lowest one, one at which the range
meets two slots, or one at which a page may be mapped. -/
def LockLevel (cfg : PageTableConfig P) (r : AddrRange) (g : ℕ) : Prop :=
  g = 1 ∨ pteIndex r.start g ≠ pteIndex (r.stop - 1) g ∨
    (g ≤ cfg.highestTranslationLevel ∧ g ≤ cfg.maxItemLevel)

/-- Why the descent stopped at level `g`: there is nothing below, the range meets two
slots, or a page is mapped there. -/
def Stops (m : Mem P) (root : ℕ) (r : AddrRange) (g : ℕ) : Prop :=
  g = 1 ∨ pteIndex r.start g ≠ pteIndex (r.stop - 1) g ∨
    ∃ q pa prop, nodeAt m root r.start g = some q ∧
      m.entry q (pteIndex r.start g) = .frame pa prop

variable {A : Fault → Prop}

/-- **The descent** finds a live node that spans the range, and only grows the
table. -/
theorem post_traverse (hm : cfg.Managed r.start) (l : ℕ) :
    ∀ (m : Mem P) (q : ℕ), AllocFaults A m → WellFormed m → Spans m cfg root r l q →
    Post A (traverse r l m q) (fun res => Grow root m res.2 ∧
      ∃ g p, res.1 = some p ∧ Spans res.2 cfg root r g p ∧ LockLevel cfg r g ∧
        Stops res.2 root r g) := by
  induction l with
  | zero =>
      intro m q _ _ h
      have := h.level_pos
      omega
  | succ l ih =>
      intro m q hA hW h
      rw [traverse]
      refine post_ite ?_ ?_
      · rintro ⟨hl, hidx⟩
        obtain ⟨n, hp, hnl, hslot, hstray, hcfg⟩ := h.node hW hm
        have hdown : ∀ pt, n.entries (pteIndex r.start (l + 1)) = .table pt →
            Post A (traverse r l m pt) (fun res => Grow root m res.2 ∧
              ∃ g p, res.1 = some p ∧ Spans res.2 cfg root r g p ∧ LockLevel cfg r g ∧
                Stops res.2 root r g) := by
          intro pt he
          exact ih m pt hA hW (h.down (by omega) hidx h.isRoot hp.nodeAt
            (by rw [Mem.entry_eq hp.node, he]))
        refine post_node_bind hp.node ?_
        cases he : n.entries (pteIndex r.start (l + 1)) with
        | frame pa prop =>
            have hleaf := (hW.ok q n hp.node).leaf _ _ _ hslot he
            rw [Node.MapsFrames, hnl, hcfg] at hleaf
            refine ⟨Grow.refl root m, l + 1, q, rfl, h, Or.inr (Or.inr hleaf), ?_⟩
            exact Or.inr (Or.inr ⟨q, pa, prop, hp.nodeAt, by rw [Mem.entry_eq hp.node, he]⟩)
        | table pt => exact hdown pt he
        | absent =>
            refine post_node_bind hp.node ?_
            rw [if_neg (by rw [hstray]; exact Bool.false_ne_true), he]
            refine Post.bind (post_allocIfNone hA hW hp.node hslot he (by omega)) ?_
            rintro ⟨_, m₁⟩ ⟨pa, rfl, ha⟩
            have hg : Grow root m m₁ := Grow.single (GrowStep.alloc hp (by omega) hstray he ha)
            have hroot₁ := (hg.keeps hW).isRoot h.isRoot
            have hq₁ : nodeAt m₁ root r.start (l + 1) = some q := by
              rw [hp.nodeAt_above hW (ha.changesEntry hW hp.node) hp.covers le_rfl hp.level_le,
                hp.nodeAt]
            have he₁ : m₁.entry q (pteIndex r.start (l + 1)) = .table pa := by
              rw [Mem.entry_eq ha.nodes_parent, Node.set_entries, Function.update_self]
            refine (ih m₁ pa ⟨hA.noMemory, hA.pool.imp_right hg.poolFresh⟩ (hg.wellFormed hW)
              (h.down (by omega) hidx hroot₁ hq₁ he₁)).mono ?_
            rintro ⟨_, m₂⟩ ⟨hg₂, g, p, hp₂, hs₂⟩
            exact ⟨hg.trans hg₂, g, p, hp₂, hs₂⟩
      · intro hstop
        refine ⟨Grow.refl root m, l + 1, q, rfl, h, ?_⟩
        by_cases hl : 1 < l + 1
        · have hne : pteIndex r.start (l + 1) ≠ pteIndex (r.stop - 1) (l + 1) :=
            fun heq => hstop ⟨hl, heq⟩
          exact ⟨Or.inr (Or.inl hne), Or.inr (Or.inl hne)⟩
        · exact ⟨Or.inl (by omega), Or.inl (by omega)⟩

/-- No node of a table is stray, so the first attempt succeeds. -/
theorem post_lockSubtreeRoot (hA : AllocFaults A m) (hW : WellFormed m) (hroot : IsRoot m cfg root)
    (hr : ∀ a, r.Contains a → cfg.Managed a) (hne : r.start < r.stop) :
    Post A (lockSubtreeRoot root r 1 m) (fun res => Grow root m res.2 ∧
      ∃ g, Spans res.2 cfg root r g res.1 ∧ LockLevel cfg r g ∧ Stops res.2 root r g) := by
  have hstart : cfg.Managed r.start := hr _ ⟨le_rfl, hne⟩
  have htop : Spans m cfg root r 4 root := by
    refine ⟨hroot, by omega, le_rfl, nodeAt_four m root _, ?_⟩
    intro a ha
    exact ((hr a ha).slotNo_eq_iff hstart (by omega) le_rfl).mp (by rw [slotNo_five, slotNo_five])
  rw [lockSubtreeRoot]
  unfold tryTraverseAndLockSubtreeRoot
  refine Post.bind (Q := fun res => Grow root m res.2 ∧
    ∃ g p, res.1 = some p ∧ Spans res.2 cfg root r g p ∧ LockLevel cfg r g ∧
      Stops res.2 root r g) ?_ ?_
  · refine Post.bind (post_traverse hstart _ m root hA hW htop) ?_
    rintro ⟨_, m₁⟩ ⟨hg, g, p, rfl, hs, hlock⟩
    obtain ⟨n, hp, -, -, hstray, -⟩ := hs.node (hg.wellFormed hW) hstart
    refine post_node_bind hp.node ?_
    rw [if_neg (by rw [hstray]; exact Bool.false_ne_true)]
    exact ⟨hg, g, p, rfl, hs, hlock⟩
  · rintro ⟨_, m₁⟩ ⟨hg, g, p, rfl, hs⟩
    exact ⟨hg, g, hs⟩

end

/-! ## The depth-first traversal -/

/-- The index of an address in a node, from the address of the node. -/
theorem pteIndex_eq_sub {l a nodeVa : ℕ} (hl : 1 ≤ l) (hdvd : pageSize (l + 1) ∣ nodeVa)
    (hlo : nodeVa ≤ a) (hhi : a < nodeVa + pageSize (l + 1)) :
    pteIndex a l = (a - nodeVa) / pageSize l := by
  obtain ⟨k, rfl⟩ := hdvd
  have hpos := pageSize_pos l
  have hsucc := pageSize_succ hl
  have hsub : a = pageSize l * (512 * k) + (a - pageSize (l + 1) * k) := by
    rw [hsucc] at hlo ⊢
    have : pageSize l * (512 * k) = 512 * pageSize l * k := by ring
    omega
  have hlt : (a - pageSize (l + 1) * k) / pageSize l < 512 := by
    rw [Nat.div_lt_iff_lt_mul hpos, ← hsucc]
    omega
  rw [pteIndex_eq]
  conv_lhs => rw [hsub]
  rw [Nat.mul_add_div hpos, Nat.add_comm, Nat.mul_comm 512 k, Nat.add_mul_mod_self_right,
    Nat.mod_eq_of_lt hlt]

/-- A range that is not empty and lies in the span of a node. -/
structure InSpan (r : AddrRange) (nodeVa level : ℕ) : Prop where
  start_le : nodeVa ≤ r.start
  nonempty : r.start < r.stop
  stop_le : r.stop ≤ nodeVa + pageSize (level + 1)

/-- The part of the range in one slot. -/
def clip (r : AddrRange) (childVa size : ℕ) : AddrRange :=
  ⟨max r.start childVa, min r.stop (childVa + size)⟩

/-- An index of the range has addresses. -/
theorem InSpan.clip_nonempty {r : AddrRange} {nodeVa level : ℕ} (h : InSpan r nodeVa level) {i : ℕ}
    (hlo : (r.start - nodeVa) / pageSize level ≤ i)
    (hhi : i < (r.stop - nodeVa + (pageSize level - 1)) / pageSize level) :
    max r.start (nodeVa + i * pageSize level) <
      min r.stop (nodeVa + i * pageSize level + pageSize level) := by
  have hpos := pageSize_pos level
  have hstart := h.start_le
  have hne := h.nonempty
  have h1 : r.start - nodeVa < (i + 1) * pageSize level := by
    rw [← Nat.div_lt_iff_lt_mul hpos]
    omega
  have h2 : (i + 1) * pageSize level ≤ r.stop - nodeVa + (pageSize level - 1) := by
    rw [← Nat.le_div_iff_mul_le hpos]
    omega
  have hsucc : (i + 1) * pageSize level = i * pageSize level + pageSize level := by ring
  rw [max_lt_iff, lt_min_iff, lt_min_iff]
  omega

/-- The first index of the range in a node of the given level. -/
def idxLo (level nodeVa : ℕ) (r : AddrRange) : ℕ := (r.start - nodeVa) / pageSize level

/-- The index after the last one. -/
def idxHi (level nodeVa : ℕ) (r : AddrRange) : ℕ :=
  (r.stop - nodeVa + (pageSize level - 1)) / pageSize level

/-- `dfs_get_idx_range` in the span of a node. -/
theorem InSpan.dfsGetIdxRange_eq {r : AddrRange} {nodeVa level : ℕ}
    (h : InSpan r nodeVa level) (h4 : level ≤ 4) :
    dfsGetIdxRange level nodeVa r = .ok ⟨idxLo level nodeVa r, idxHi level nodeVa r⟩ := by
  have hstart := h.start_le
  have hne := h.nonempty
  have hstop := h.stop_le
  have h5 : pageSize (level + 1) ≤ 281474976710656 := by
    rw [← pageSize_five]
    exact pageSize_le (by omega)
  have hps : pageSize level ≤ pageSize (level + 1) := pageSize_le (by omega)
  have hsum : r.stop - nodeVa + (pageSize level - 1) < 2 ^ 64 := by omega
  unfold dfsGetIdxRange Exec.sub Exec.add
  rw [if_pos (by omega), if_pos (by omega)]
  simp only [bind, Except.bind, if_pos hsum]
  rfl

/-- The setting of `dfs_acquire_lock` at a node: the range is not empty, lies in the
span of the node, and the node is on the walk of each of its addresses. -/
structure DfsAt (m : Mem P) (root : ℕ) (r : AddrRange) (q nodeVa : ℕ) (n : Node P) : Prop where
  node : m.nodes q = some n
  level_le : n.level ≤ 4
  dvd : pageSize (n.level + 1) ∣ nodeVa
  start_le : nodeVa ≤ r.start
  nonempty : r.start < r.stop
  stop_le : r.stop ≤ nodeVa + pageSize (n.level + 1)
  nodeAt : ∀ a, r.Contains a → nodeAt m root a n.level = some q
  slot : ∀ a, r.Contains a → n.slots.Contains (pteIndex a n.level)

/-- The nodes of the walks of `r`, strictly below level `L`. -/
def WalkNodes (m : Mem P) (root : ℕ) (r : AddrRange) (L p : ℕ) : Prop :=
  ∃ a l, r.Contains a ∧ 1 ≤ l ∧ l < L ∧ nodeAt m root a l = some p

section

variable {m : Mem P} {root q nodeVa : ℕ} {r : AddrRange} {n : Node P}

theorem DfsAt.inSpan (h : DfsAt m root r q nodeVa n) : InSpan r nodeVa n.level :=
  ⟨h.start_le, h.nonempty, h.stop_le⟩

theorem DfsAt.index (h : DfsAt m root r q nodeVa n) (hl : 1 ≤ n.level) {a : ℕ}
    (ha : r.Contains a) : pteIndex a n.level = (a - nodeVa) / pageSize n.level :=
  pteIndex_eq_sub hl h.dvd (h.start_le.trans ha.1) (lt_of_lt_of_le ha.2 h.stop_le)

/-- The addresses of the part are those of the range with this index. -/
theorem DfsAt.clip_iff (h : DfsAt m root r q nodeVa n) (hl : 1 ≤ n.level) (i a : ℕ) :
    (clip r (nodeVa + i * pageSize n.level) (pageSize n.level)).Contains a ↔
      r.Contains a ∧ pteIndex a n.level = i := by
  have hpos := pageSize_pos n.level
  have hsucc : i * pageSize n.level + pageSize n.level = (i + 1) * pageSize n.level := by ring
  have hdiv : nodeVa ≤ a → ((a - nodeVa) / pageSize n.level = i ↔
      nodeVa + i * pageSize n.level ≤ a ∧ a < nodeVa + i * pageSize n.level +
        pageSize n.level) := by
    intro hle
    rw [Nat.div_eq_iff hpos]
    omega
  have hstart := h.start_le
  unfold clip AddrRange.Contains
  simp only
  constructor
  · rintro ⟨h1, h2⟩
    have hlo : r.start ≤ a := (le_max_left _ _).trans h1
    have hhi : a < r.stop := lt_of_lt_of_le h2 (min_le_left _ _)
    refine ⟨⟨hlo, hhi⟩, ?_⟩
    rw [h.index hl ⟨hlo, hhi⟩, hdiv (by omega)]
    exact ⟨(le_max_right _ _).trans h1, lt_of_lt_of_le h2 (min_le_right _ _)⟩
  · rintro ⟨⟨h1, h2⟩, hi⟩
    rw [h.index hl ⟨h1, h2⟩, hdiv (by omega)] at hi
    exact ⟨max_le h1 hi.1, lt_min h2 hi.2⟩

/-- The setting at a child. -/
theorem DfsAt.child (h : DfsAt m root r q nodeVa n) (hW : WellFormed m) {i pt : ℕ} {k : Node P}
    (he : n.entries i = .table pt) (hk : m.nodes pt = some k) (hkl : k.level + 1 = n.level)
    (hne : max r.start (nodeVa + i * pageSize n.level) <
      min r.stop (nodeVa + i * pageSize n.level + pageSize n.level)) :
    DfsAt m root (clip r (nodeVa + i * pageSize n.level) (pageSize n.level)) pt
      (nodeVa + i * pageSize n.level) k where
  node := hk
  level_le := by
    have := h.level_le
    omega
  dvd := by
    rw [hkl]
    exact Nat.dvd_add ((pageSize_dvd (Nat.le_succ _)).trans h.dvd) (Nat.dvd_mul_left _ _)
  start_le := le_max_right _ _
  nonempty := hne
  stop_le := by
    rw [hkl]
    exact min_le_right _ _
  nodeAt := by
    intro a ha
    have hkp := (hW.ok pt k hk).level_pos
    obtain ⟨har, hi⟩ := (h.clip_iff (by omega) i a).mp ha
    have hstep := nodeAt_step (q := pt) (by omega) h.level_le (h.nodeAt a har)
      (by rw [Mem.entry_eq h.node, hi, he])
    rwa [show n.level - 1 = k.level from by omega] at hstep
  slot := by
    intro a _
    have := h.level_le
    exact Node.slots_of_level_lt (by omega) (pteIndex_lt _ _)

/-- The indices of the range in the node. -/
theorem DfsAt.index_mem (h : DfsAt m root r q nodeVa n) (hl : 1 ≤ n.level) {a : ℕ}
    (ha : r.Contains a) :
    idxLo n.level nodeVa r ≤ pteIndex a n.level ∧ pteIndex a n.level < idxHi n.level nodeVa r := by
  have hpos := pageSize_pos n.level
  have hstart := ha.1
  have hstop := ha.2
  have hnode := h.start_le
  unfold idxLo idxHi
  rw [h.index hl ha]
  refine ⟨Nat.div_le_div_right (by omega), ?_⟩
  rw [Nat.lt_div_iff_mul_lt hpos]
  have hdiv := Nat.div_mul_le_self (a - nodeVa) (pageSize n.level)
  omega

/-- The nodes of the walks of the addresses with an index below `i`. -/
def WalkNodesBefore (m : Mem P) (root : ℕ) (r : AddrRange) (L i p : ℕ) : Prop :=
  ∃ a l, r.Contains a ∧ pteIndex a L < i ∧ 1 ≤ l ∧ l < L ∧ nodeAt m root a l = some p

/-- With all indices these are the nodes of all walks. -/
theorem DfsAt.walkNodesBefore_iff (h : DfsAt m root r q nodeVa n) (hl : 1 ≤ n.level) (p : ℕ) :
    WalkNodesBefore m root r n.level (idxHi n.level nodeVa r) p ↔
      WalkNodes m root r n.level p := by
  constructor
  · rintro ⟨a, l, ha, -, h1, h2, hp⟩
    exact ⟨a, l, ha, h1, h2, hp⟩
  · rintro ⟨a, l, ha, h1, h2, hp⟩
    exact ⟨a, l, ha, (h.index_mem hl ha).2, h1, h2, hp⟩

/-- Where the entry is no child, the walks of its addresses end. -/
theorem DfsAt.walkNodesBefore_skip (h : DfsAt m root r q nodeVa n) (hl : 1 ≤ n.level) {i : ℕ}
    (hno : ∀ c, n.entries i ≠ .table c) (p : ℕ) :
    WalkNodesBefore m root r n.level (i + 1) p ↔ WalkNodesBefore m root r n.level i p := by
  constructor
  · rintro ⟨a, l, ha, hai, h1, h2, hp⟩
    refine ⟨a, l, ha, ?_, h1, h2, hp⟩
    rcases Nat.lt_succ_iff_lt_or_eq.mp hai with hai | hai
    · exact hai
    · exfalso
      have h4 := h.level_le
      obtain ⟨p', hp'⟩ := nodeAt_above (k := n.level - 1) (by omega) (by omega) hp
      obtain ⟨q', hq', he'⟩ := (nodeAt_eq_some_iff (by omega)).mp hp'
      rw [Nat.sub_add_cancel hl] at hq' he'
      rw [h.nodeAt a ha] at hq'
      obtain rfl := Option.some.inj hq'
      rw [Mem.entry_eq h.node, hai] at he'
      exact hno p' he'
  · rintro ⟨a, l, ha, hai, hrest⟩
    exact ⟨a, l, ha, by omega, hrest⟩

/-- Where the entry is a child, the walks of its addresses go on in the child. -/
theorem DfsAt.walkNodesBefore_child (h : DfsAt m root r q nodeVa n) {i pt : ℕ} {k : Node P}
    (hk : 1 ≤ k.level) (hkl : k.level + 1 = n.level)
    (hchild : DfsAt m root (clip r (nodeVa + i * pageSize n.level) (pageSize n.level)) pt
      (nodeVa + i * pageSize n.level) k) (p : ℕ) :
    WalkNodesBefore m root r n.level (i + 1) p ↔ WalkNodesBefore m root r n.level i p ∨ p = pt ∨
      WalkNodes m root (clip r (nodeVa + i * pageSize n.level) (pageSize n.level)) k.level p := by
  have hl : 1 ≤ n.level := by omega
  constructor
  · rintro ⟨a, l, ha, hai, h1, h2, hp⟩
    rcases Nat.lt_succ_iff_lt_or_eq.mp hai with hai | hai
    · exact Or.inl ⟨a, l, ha, hai, h1, h2, hp⟩
    · have hac := (h.clip_iff hl i a).mpr ⟨ha, hai⟩
      by_cases hlk : l = k.level
      · subst hlk
        rw [hchild.nodeAt a hac] at hp
        exact Or.inr (Or.inl (Option.some.inj hp).symm)
      · exact Or.inr (Or.inr ⟨a, l, hac, h1, by omega, hp⟩)
  · rintro (⟨a, l, ha, hai, hrest⟩ | rfl | ⟨a, l, ha, h1, h2, hp⟩)
    · exact ⟨a, l, ha, by omega, hrest⟩
    · -- the first address of the part
      obtain ⟨har, hai⟩ := (h.clip_iff hl i _).mp ⟨le_rfl, hchild.nonempty⟩
      exact ⟨_, k.level, har, by omega, hk, by omega, hchild.nodeAt _ ⟨le_rfl, hchild.nonempty⟩⟩
    · obtain ⟨har, hai⟩ := (h.clip_iff hl i a).mp ha
      exact ⟨a, l, har, by omega, h1, by omega, hp⟩

/-- A child of the range is live, and one level lower. -/
theorem DfsAt.exists_child (h : DfsAt m root r q nodeVa n) (hW : WellFormed m)
    (hl : 1 ≤ n.level) {i pt : ℕ} (he : n.entries i = .table pt)
    (hclip : max r.start (nodeVa + i * pageSize n.level) <
      min r.stop (nodeVa + i * pageSize n.level + pageSize n.level)) :
    ∃ k, m.nodes pt = some k ∧ k.level + 1 = n.level := by
  -- the first address of the part shows that the slot is managed
  have hfirst := (h.clip_iff hl i _).mp ⟨le_rfl, hclip⟩
  have hslot := h.slot _ hfirst.1
  rw [hfirst.2] at hslot
  obtain ⟨k, hk, hkl, -⟩ := (hW.ok q n h.node).child i pt hslot he
  exact ⟨k, hk, hkl⟩

end

/-- One round of the traversal, at an entry that is a child. -/
theorem post_acquireChild {A : Fault → Prop} {m : Mem P} {root q nodeVa : ℕ} {r : AddrRange}
    {n : Node P} (hW : WellFormed m) (h : DfsAt m root r q nodeVa n) {fuel : ℕ}
    (ih : ∀ (q nodeVa : ℕ) (r : AddrRange) (k : Node P), DfsAt m root r q nodeVa k →
      (A .overflow ∨ r.stop + pageSize k.level ≤ 2 ^ 64) → k.level ≤ fuel →
      Post A (dfsAcquireLock fuel m q nodeVa r)
        (fun locked => ∀ p, p ∈ locked ↔ WalkNodes m root r k.level p))
    (hov : A .overflow ∨ r.stop + pageSize n.level ≤ 2 ^ 64) (hfuel : n.level ≤ fuel + 1)
    {i pt : ℕ} (hlo : idxLo n.level nodeVa r ≤ i) (hhi : i < idxHi n.level nodeVa r)
    (he : n.entries i = .table pt) {locked : List ℕ}
    (hlocked : ∀ p, p ∈ locked ↔ WalkNodesBefore m root r n.level i p) :
    Post A (do
        let childVa ← Exec.add nodeVa (i * pageSize n.level)
        let childVaEnd ← Exec.add childVa (pageSize n.level)
        let below ← dfsAcquireLock fuel m pt childVa ⟨max r.start childVa, min r.stop childVaEnd⟩
        .ok (locked ++ pt :: below))
      (fun locked => ∀ p, p ∈ locked ↔ WalkNodesBefore m root r n.level (i + 1) p) := by
  have hclip := h.inSpan.clip_nonempty hlo hhi
  -- the child starts before the range ends
  have hend : 2 ^ 64 ≤ nodeVa + i * pageSize n.level + pageSize n.level → A .overflow := by
    intro hend
    have hchild : nodeVa + i * pageSize n.level < r.stop :=
      lt_of_le_of_lt (le_max_right _ _) (lt_of_lt_of_le hclip (min_le_left _ _))
    exact hov.resolve_right (by omega)
  refine Post.bind (post_add (fun hbig => hend (by omega))) ?_
  rintro _ ⟨rfl, -⟩
  refine Post.bind (post_add hend) ?_
  rintro _ ⟨rfl, -⟩
  obtain ⟨k, hk, hkl⟩ := h.exists_child hW (hW.ok q n h.node).level_pos he hclip
  have hchild := h.child hW he hk hkl hclip
  have hov' : A .overflow ∨
      (clip r (nodeVa + i * pageSize n.level) (pageSize n.level)).stop + pageSize k.level ≤
        2 ^ 64 := by
    refine hov.imp_right ?_
    intro hfit
    have hsize : pageSize k.level ≤ pageSize n.level := pageSize_le (by omega)
    have hstop : (clip r (nodeVa + i * pageSize n.level) (pageSize n.level)).stop ≤ r.stop :=
      min_le_left _ _
    omega
  refine Post.bind (ih pt _ _ k hchild hov' (by omega)) ?_
  intro below hbelow p
  rw [List.mem_append, List.mem_cons, hlocked, hbelow]
  exact (h.walkNodesBefore_child (hW.ok pt k hk).level_pos hkl hchild p).symm

/-- **The traversal locks exactly the nodes that cover a part of the range.** -/
theorem post_dfsAcquireLock {A : Fault → Prop} {m : Mem P} {root : ℕ} (hW : WellFormed m)
    (fuel : ℕ) : ∀ (q nodeVa : ℕ) (r : AddrRange) (n : Node P), DfsAt m root r q nodeVa n →
    (A .overflow ∨ r.stop + pageSize n.level ≤ 2 ^ 64) → n.level ≤ fuel →
    Post A (dfsAcquireLock fuel m q nodeVa r)
      (fun locked => ∀ p, p ∈ locked ↔ WalkNodes m root r n.level p) := by
  induction fuel with
  | zero =>
      intro q nodeVa r n h _ hfuel
      have := (hW.ok q n h.node).level_pos
      omega
  | succ fuel ih =>
      intro q nodeVa r n h hov hfuel
      have hlp := (hW.ok q n h.node).level_pos
      rw [dfsAcquireLock]
      refine post_node_bind h.node ?_
      refine post_ite ?_ ?_
      · intro hl1 p
        simp only [List.not_mem_nil, false_iff]
        rintro ⟨a, l, -, h1, h2, -⟩
        omega
      intro hl1
      rw [h.inSpan.dfsGetIdxRange_eq h.level_le]
      show Post A (forRange _ (idxLo n.level nodeVa r)
        (idxHi n.level nodeVa r - idxLo n.level nodeVa r) []) _
      have hlohi : idxLo n.level nodeVa r ≤ idxHi n.level nodeVa r := by
        have := h.index_mem hlp ⟨le_rfl, h.nonempty⟩
        omega
      -- after the index `i` the nodes below the smaller indices are locked
      refine Post.mono (post_forRange
        (fun i locked => ∀ p, p ∈ locked ↔ WalkNodesBefore m root r n.level i p) _ _ [] ?_ ?_) ?_
      · intro p
        simp only [List.not_mem_nil, false_iff]
        rintro ⟨a, l, ha, hi', -⟩
        have := (h.index_mem hlp ha).1
        omega
      · intro i locked hi₁ hi₂ hlocked
        have hskip : (∀ c, n.entries i ≠ .table c) →
            ∀ p, p ∈ locked ↔ WalkNodesBefore m root r n.level (i + 1) p := by
          intro hno p
          rw [hlocked, h.walkNodesBefore_skip hlp hno]
        cases he : n.entries i with
        | absent => exact hskip (by rw [he]; simp)
        | frame pa prop => exact hskip (by rw [he]; simp)
        | table pt => exact post_acquireChild hW h ih hov hfuel hi₁ (by omega) he hlocked
      · intro locked hlocked p
        rw [Nat.add_sub_cancel' hlohi] at hlocked
        rw [hlocked, h.walkNodesBefore_iff hlp]

/-! ## Opening a cursor -/

/-- The nodes that cover a part of the range, from level `L` down. -/
def Covering (m : Mem P) (root : ℕ) (r : AddrRange) (L p : ℕ) : Prop :=
  ∃ a l, r.Contains a ∧ 1 ≤ l ∧ l ≤ L ∧ nodeAt m root a l = some p

section

variable {m : Mem P} {cfg : PageTableConfig P} {root : ℕ} {r : AddrRange}

theorem Spans.nodeAt_of_mem {l q : ℕ} (h : Spans m cfg root r l q) {a : ℕ} (ha : r.Contains a) :
    Vostd.nodeAt m root a l = some q := by
  have hl := h.level_pos
  have h4 := h.level_le
  rw [nodeAt_congr h4 (slotNo_of_div (by omega) (by omega) (h.span a ha)), h.nodeAt]

/-- The subtree root is where the depth-first traversal can start. -/
theorem Spans.dfsAt {l q : ℕ} {n : Node P} (h : Spans m cfg root r l q) (hW : WellFormed m)
    (hr : ∀ a, r.Contains a → cfg.Managed a) (hne : r.start < r.stop)
    (hn : m.nodes q = some n) (hnl : n.level = l) :
    DfsAt m root r q (alignDown r.start (pageSize (n.level + 1))) n where
  node := hn
  level_le := by rw [hnl]; exact h.level_le
  dvd := dvd_alignDown _ _
  start_le := alignDown_le _ _
  nonempty := hne
  stop_le := by
    have hlast := h.span (r.stop - 1) ⟨by omega, by omega⟩
    rw [div_eq_iff_mem (pageSize_pos _), ← hnl] at hlast
    omega
  nodeAt := by
    intro a ha
    rw [hnl, h.nodeAt_of_mem ha]
  slot := by
    intro a ha
    obtain ⟨n', hn', hnl', hs⟩ := hW.reach_of_covers (h.isRoot.covers (hr a ha)) h.level_pos
      h.level_le (h.nodeAt_of_mem ha)
    rw [hn] at hn'
    obtain rfl := Option.some.inj hn'
    rwa [hnl]

/-- What a freshly opened cursor is: it stands at the start of its range, at the
subtree root, and has locked exactly the nodes that cover a part of the range. -/
structure Opened (m : Mem P) (cfg : PageTableConfig P) (root : ℕ) (r : AddrRange) (c : Cursor)
    (locked : List ℕ) : Prop where
  cursor : CursorOK m cfg root c
  barrierVa : c.barrierVa = r
  va : c.va = r.start
  root_mem : ∃ q, locked.head? = some q ∧ ∀ a, r.Contains a → nodeAt m root a c.guardLevel = some q
  mem_iff : ∀ p, p ∈ locked ↔ Covering m root r c.guardLevel p

/-- After the range there is room for a slot of any level at which it can be locked. -/
def RangeHeadroom (cfg : PageTableConfig P) (r : AddrRange) : Prop :=
  ∀ g, 1 ≤ g → g ≤ 4 → LockLevel cfg r g → r.stop + pageSize g ≤ 2 ^ 64

variable {A : Fault → Prop}

theorem post_lockRange (hA : AllocFaults A m) (hov : A .overflow ∨ RangeHeadroom cfg r)
    (hW : WellFormed m) (hroot : IsRoot m cfg root)
    (hr : ∀ a, r.Contains a → cfg.Managed a) (hne : r.start < r.stop)
    (hs : 4096 ∣ r.start) (ht : 4096 ∣ r.stop) :
    Post A (lockRange m root r) (fun res => Grow root m res.2 ∧
      LockLevel cfg r res.1.1.guardLevel ∧ Stops res.2 root r res.1.1.guardLevel ∧
      Opened res.2 cfg root r res.1.1 res.1.2) := by
  unfold lockRange
  refine Post.bind (post_lockSubtreeRoot hA hW hroot hr hne) ?_
  rintro ⟨q, m₁⟩ ⟨hg, g, hsp, hlock, hstops⟩
  have hW₁ := hg.wellFormed hW
  have hstart : cfg.Managed r.start := hr _ ⟨le_rfl, hne⟩
  obtain ⟨n, hp, hnl, -⟩ := hsp.node hW₁ hstart
  simp only at hp hW₁ hsp
  refine post_node_bind hp.node ?_
  have hlp := hsp.level_pos
  have hl4 := hsp.level_le
  refine Post.bind (post_dfsAcquireLock hW₁ NR_LEVELS q _ r n
    (hsp.dfsAt hW₁ hr hne hp.node hnl) ?_ (by unfold NR_LEVELS; omega)) ?_
  · refine hov.imp_right ?_
    intro hroom
    rw [hnl]
    exact hroom g hlp hl4 hlock
  intro below hbelow
  rw [← hnl] at hlock hstops
  refine ⟨hg, hlock, hstops, ⟨⟨hsp.isRoot, ?_, le_rfl, ?_, hne, hr, ht, hs, le_rfl, ?_, ?_, ?_⟩,
    hne.le⟩, rfl, rfl, ⟨q, rfl, ?_⟩, ?_⟩
  · show 1 ≤ n.level
    omega
  · show n.level ≤ 4
    omega
  · intro a ha
    show a / pageSize (n.level + 1) = r.start / pageSize (n.level + 1)
    rw [hnl]
    exact hsp.span a ha
  · intro l hl
    show Function.update (fun _ => none) (n.level - 1) (some q) (l - 1) = none
    have : n.level < l := hl
    rw [Function.update_of_ne (by omega)]
  · refine ⟨r.start, ⟨le_rfl, hne⟩, ?_, fun _ => rfl⟩
    intro l h1 h2
    have h1' : n.level ≤ l := h1
    have h2' : l ≤ n.level := h2
    obtain rfl : l = n.level := le_antisymm h2' h1'
    refine ⟨q, by simp, ?_⟩
    rw [hnl]
    exact hsp.nodeAt
  · intro a ha
    show nodeAt m₁ root a n.level = some q
    rw [hnl, hsp.nodeAt_of_mem ha]
  · intro p
    show p ∈ q :: below ↔ Covering m₁ root r n.level p
    rw [List.mem_cons, hbelow]
    constructor
    · rintro (rfl | ⟨a, l, ha, h1, h2, hpa⟩)
      · exact ⟨r.start, n.level, ⟨le_rfl, hne⟩, by omega, le_rfl, by rw [hnl]; exact hsp.nodeAt⟩
      · exact ⟨a, l, ha, h1, h2.le, hpa⟩
    · rintro ⟨a, l, ha, h1, h2, hpa⟩
      by_cases hl : l = n.level
      · subst hl
        rw [hnl, hsp.nodeAt_of_mem ha] at hpa
        exact Or.inl (Option.some.inj hpa).symm
      · exact Or.inr ⟨a, l, ha, h1, by omega, hpa⟩

/-- **`Cursor::new`**: an invalid range is refused; otherwise the table only grows,
and the result is a cursor in the initial state. -/
theorem post_new (hA : AllocFaults A m) (hov : A .overflow ∨ RangeHeadroom cfg r)
    (hW : WellFormed m) (hroot : IsRoot m cfg root) :
    Post A (Cursor.new cfg m root r) (fun res => Grow root m res.2 ∧
      match res.1 with
      | .error _ => res.2 = m
      | .ok (c, locked) => cfg.isValidRange r = true ∧ LockLevel cfg r c.guardLevel ∧
          Stops res.2 root r c.guardLevel ∧ Opened res.2 cfg root r c locked) := by
  unfold Cursor.new
  refine post_ite ?_ ?_
  · intro _
    exact ⟨Grow.refl root m, rfl⟩
  intro hvalid
  refine post_ite ?_ ?_
  · intro _
    exact ⟨Grow.refl root m, rfl⟩
  intro halign
  simp only [Bool.or_eq_true, Bool.not_eq_true', decide_eq_true_eq, not_or,
    Bool.not_eq_false] at hvalid
  rw [not_or, not_not, not_not] at halign
  obtain ⟨hne, hr⟩ := PageTableConfig.managed_of_isValidRange hvalid.1
  refine Post.bind (post_lockRange hA hov hW hroot hr hne (Nat.dvd_of_mod_eq_zero halign.1)
    (Nat.dvd_of_mod_eq_zero halign.2)) ?_
  rintro ⟨⟨c, locked⟩, m₁⟩ ⟨hg, hlock, hstops, ho⟩
  exact ⟨hg, hvalid.1, hlock, hstops, ho⟩

/-- A cursor that was opened. -/
theorem opened_of_new {c : Cursor} {locked : List ℕ} {m' : Mem P} (hW : WellFormed m)
    (hroot : IsRoot m cfg root) (hnew : Cursor.new cfg m root r = .ok (.ok (c, locked), m')) :
    Grow root m m' ∧ Opened m' cfg root r c locked := by
  obtain ⟨hg, -, -, -, ho⟩ :=
    (post_new (Fault.refusing_isPanic.alloc m) (Or.inl trivial) hW hroot).of_ok hnew
  exact ⟨hg, ho⟩

end

end Vostd
