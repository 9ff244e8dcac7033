/-
# Frame conditions, and growing a table

`Keeps` is the frame condition of a step on one table, `Grow` the closure of the
two ways in which a table gets new nodes: an absent entry gets an empty node, and
a huge page is split into a node of smaller pages.  Neither changes the
translation of any address (`Grow.keeps`), and both keep the memory well formed
(`Grow.wellFormed`).

The last part gives each node operation of `Node.lean` its specification in these
terms.
-/
import Vostd.PageTable.Effect

namespace Vostd

open Exec

variable {P : Type} {n : Node P} {m m' : Mem P} {root va l q x pa : ℕ}

/-! ## The frame condition -/

/-- The entries of a root that stay as they are: those that the table does not
manage, and the children of a table that never gives up its top-level children. -/
def Node.Fixed (n : Node P) (i : ℕ) : Prop :=
  ¬n.slots.Contains i ∨ (n.cfg.topLevelCanUnmap = false ∧ ∃ c, n.entries i = .table c)

/-- From `m` to `m'`, the table of `root` changed only at addresses in `R`, and
no other table changed. -/
structure Keeps (m m' : Mem P) (root : ℕ) (R : ℕ → Prop) : Prop where
  top : ∀ r n, m.nodes r = some n → n.level = 4 → ∃ n', m'.nodes r = some n' ∧ n'.level = 4 ∧
    n'.cfg = n.cfg ∧ n'.stray = n.stray ∧ ∀ i, n.Fixed i → n'.entries i = n.entries i
  nodeAt : ∀ r x, Covers m r x → (r = root → ¬R x) → ∀ l q, 1 ≤ l → l ≤ 4 →
    nodeAt m r x l = some q → nodeAt m' r x l = some q
  walk : ∀ r x, Covers m r x → (r = root → ¬R x) → pageWalk m' r x = pageWalk m r x

theorem Node.Fixed.of_eq {n' : Node P} {i : ℕ} (h : n.Fixed i) (hs : n'.slots = n.slots)
    (hc : n'.cfg = n.cfg) (he : n'.entries i = n.entries i) : n'.Fixed i := by
  unfold Node.Fixed
  rw [hs, hc, he]
  exact h

namespace Keeps

variable {m m' m'' : Mem P} {root : ℕ} {R : ℕ → Prop}

theorem refl (m : Mem P) (root : ℕ) (R : ℕ → Prop) : Keeps m m root R where
  top := fun _ n hn hl => ⟨n, hn, hl, rfl, rfl, fun _ _ => rfl⟩
  nodeAt := fun _ _ _ _ _ _ _ _ hq => hq
  walk := fun _ _ _ _ => rfl

theorem slots_eq {n n' : Node P} (hl : n.level = 4) (hl' : n'.level = 4) (hc : n'.cfg = n.cfg) :
    n'.slots = n.slots := by
  unfold Node.slots
  rw [hl, hl', hc]

theorem covers (hk : Keeps m m' root R) {r x : ℕ} (h : Covers m r x) : Covers m' r x := by
  obtain ⟨n, hn, hl, hs⟩ := h
  obtain ⟨n', hn', hl', hc, -⟩ := hk.top r n hn hl
  exact ⟨n', hn', hl', by rwa [slots_eq hl hl' hc]⟩

theorem isRoot (hk : Keeps m m' root R) {cfg : PageTableConfig P} {r : ℕ}
    (h : IsRoot m cfg r) : IsRoot m' cfg r := by
  obtain ⟨n, hn, hl, hc, hs⟩ := h
  obtain ⟨n', hn', hl', hc', hs', -⟩ := hk.top r n hn hl
  exact ⟨n', hn', hl', by rw [hc', hc], by rw [hs', hs]⟩

/-- Frame conditions compose. -/
theorem trans (hk : Keeps m m' root R) (hk' : Keeps m' m'' root R) : Keeps m m'' root R where
  top := by
    intro r n hn hl
    obtain ⟨n', hn', hl', hc, hs, he⟩ := hk.top r n hn hl
    obtain ⟨n'', hn'', hl'', hc', hs', he'⟩ := hk'.top r n' hn' hl'
    refine ⟨n'', hn'', hl'', by rw [hc', hc], by rw [hs', hs], ?_⟩
    intro i hi
    rw [he' i (hi.of_eq (slots_eq hl hl' hc) hc (he i hi)), he i hi]
  nodeAt := by
    intro r x hx hR l q hl h4 hq
    exact hk'.nodeAt r x (hk.covers hx) hR l q hl h4 (hk.nodeAt r x hx hR l q hl h4 hq)
  walk := by
    intro r x hx hR
    rw [hk'.walk r x (hk.covers hx) hR, hk.walk r x hx hR]

theorem mono {S : ℕ → Prop} (hk : Keeps m m' root R) (h : ∀ x, R x → S x) :
    Keeps m m' root S where
  top := hk.top
  nodeAt := fun r x hx hS => hk.nodeAt r x hx (fun hr hR => hS hr (h x hR))
  walk := fun r x hx hS => hk.walk r x hx (fun hr hR => hS hr (h x hR))

/-- The frame condition for all addresses, managed or not: an entry that a table
does not manage leads into a table that never gives up its top-level children. -/
theorem walk_all (hk : Keeps m m' root R) (h : WellFormed m) {r x : ℕ} {n : Node P}
    (hr : m.nodes r = some n) (hl : n.level = 4) (hR : r = root → ¬R x)
    (hlend : ∀ k, m.nodes root = some k → k.cfg.topLevelCanUnmap = false → ¬R x) :
    pageWalk m' r x = pageWalk m r x := by
  by_cases hs : n.slots.Contains (pteIndex x 4)
  · exact hk.walk r x ⟨n, hr, hl, hs⟩ hR
  obtain ⟨n', hn', -, -, -, hent⟩ := hk.top r n hr hl
  have he : m.entry r (pteIndex x 4) = n.entries (pteIndex x 4) := Mem.entry_eq hr _
  have he' : m'.entry r (pteIndex x 4) = n.entries (pteIndex x 4) := by
    rw [Mem.entry_eq hn', hent _ (Or.inl hs)]
  unfold pageWalk NR_LEVELS
  cases hc : n.entries (pteIndex x 4) with
  | absent =>
      rw [walkFrom_absent (by omega) (he.trans hc), walkFrom_absent (by omega) (he'.trans hc)]
  | frame pa prop =>
      rw [walkFrom_frame (by omega) (he.trans hc), walkFrom_frame (by omega) (he'.trans hc)]
  | table c =>
      obtain ⟨t, k, ht, hkl, hcan, hslot, hec⟩ := h.borrowed r n _ c hr (pteIndex_lt x 4) hs hc
      have hcov : Covers m t x := ⟨k, ht, hkl, hslot⟩
      have htR : t = root → ¬R x := by
        rintro rfl
        exact hlend k ht hcan
      have hat : Vostd.nodeAt m t x 3 = some c :=
        nodeAt_step (by omega) le_rfl (nodeAt_four m t x) (by rw [Mem.entry_eq ht, hec])
      have hat' := hk.nodeAt t x hcov htR 3 c (by omega) (by omega) hat
      rw [walkFrom_table (by omega) (he.trans hc), walkFrom_table (by omega) (he'.trans hc),
        ← pageWalk_eq_walkFrom (by omega) hat, ← pageWalk_eq_walkFrom (by omega) hat']
      exact hk.walk t x hcov htR

end Keeps

/-- A change of one entry concerns only the addresses of its slot. -/
theorem Position.keeps (hp : Position m root va l q n) (h : WellFormed m)
    (hc : ChangesEntry m m' q (pteIndex va l))
    (hfix : ∀ c, n.entries (pteIndex va l) = .table c → n.level = 4 →
      n.cfg.topLevelCanUnmap = true) :
    Keeps m m' root (fun x => slotNo l x = slotNo l va) where
  top := by
    intro r k hk hkl
    by_cases hr : r = q
    · subst hr
      rw [hp.node] at hk
      obtain rfl := Option.some.inj hk
      obtain ⟨n', hn', hl', hc', hs', hent⟩ := hc.self n hp.node
      refine ⟨n', hn', by rw [hl', hkl], hc', hs', ?_⟩
      intro i hi
      refine hent i ?_
      rintro rfl
      rcases hi with hi | ⟨hcfg, c, hi⟩
      · exact hi (hp.slot h)
      · rw [hfix c hi hkl] at hcfg
        exact Bool.false_ne_true hcfg.symm
    · exact ⟨k, hc.other r k hr hk, hkl, rfl, rfl, fun _ _ => rfl⟩
  nodeAt := by
    intro r x hx hR j p hj hj4 hpj
    rw [hp.nodeAt_beside h hc hx hj hj4 hR, hpj]
  walk := fun r x hx hR => hp.pageWalk_beside h hc hx hR

theorem Covers.of_slot (h : Covers m root va) (hl : 1 ≤ l)
    (h4 : l ≤ 4) (hs : slotNo l x = slotNo l va) : Covers m root x := by
  obtain ⟨n, hn, hnl, hslot⟩ := h
  exact ⟨n, hn, hnl, by rwa [pteIndex_of_slotNo hl h4 le_rfl hs]⟩

/-- **Attaching a node that translates as the entry did changes no translation.** -/
theorem Attached.keeps {c : Node P}
    (ha : Attached m m' q (pteIndex va l) pa n c) (hp : Position m root va l q n)
    (h : WellFormed m) (hold : ∀ d, n.entries (pteIndex va l) ≠ .table d)
    (hwalk : ∀ x, slotNo l x = slotNo l va → walkFrom m' (l - 1) pa x = walkFrom m l q x) :
    Keeps m m' root (fun _ => False) where
  top := (hp.keeps h (ha.changesEntry h hp.node) (fun d hd => absurd hd (hold d))).top
  nodeAt := by
    intro r x hx _ j p hj hj4 hpj
    have hc := ha.changesEntry h hp.node
    have hl := hp.level_pos
    have hl4 := hp.level_le
    by_cases hs : r = root ∧ slotNo l x = slotNo l va
    · obtain ⟨rfl, hs⟩ := hs
      by_cases hjl : l ≤ j
      · rw [hp.nodeAt_above h hc hx hjl hj4, hpj]
      · -- below the entry the walk visited nothing
        exfalso
        obtain ⟨p', hp'⟩ := nodeAt_above (k := l - 1) (by omega) (by omega) hpj
        obtain ⟨q', hq', he⟩ := (nodeAt_eq_some_iff (by omega)).mp hp'
        rw [Nat.sub_add_cancel hl] at hq' he
        rw [nodeAt_congr hl4 (slotNo_mono hl (Nat.le_succ l) hs), hp.nodeAt] at hq'
        obtain rfl := Option.some.inj hq'
        rw [Mem.entry_eq hp.node, pteIndex_of_slotNo hl le_rfl hl4 hs] at he
        exact hold p' he
    · rw [hp.nodeAt_beside h hc hx hj hj4 (fun hr hsl => hs ⟨hr, hsl⟩), hpj]
  walk := by
    intro r x hx _
    have hc := ha.changesEntry h hp.node
    by_cases hs : r = root ∧ slotNo l x = slotNo l va
    · obtain ⟨rfl, hs⟩ := hs
      have hpx := hp.of_slot (slotNo_mono hp.level_pos (Nat.le_succ l) hs) hx
      have hq' : Vostd.nodeAt m' r x l = some q := by
        rw [hp.nodeAt_above h hc hx le_rfl hp.level_le, hpx.nodeAt]
      have he' : m'.entry q (pteIndex x l) = .table pa := by
        rw [Mem.entry_eq ha.nodes_parent, Node.set_entries,
          pteIndex_of_slotNo hp.level_pos le_rfl hp.level_le hs, Function.update_self]
      rw [pageWalk_eq_walkFrom hp.level_le hq', pageWalk_eq_walkFrom hp.level_le hpx.nodeAt,
        walkFrom_table hp.level_pos he', hwalk x hs]
    · exact hp.pageWalk_beside h hc hx (fun hr hsl => hs ⟨hr, hsl⟩)

/-! ## Growing a table -/

/-- The node that a huge page is split into, filled up to entry `k`. -/
def Node.splitUpTo (n : Node P) (pa : ℕ) (prop : P) (k : ℕ) : Node P where
  cfg := n.cfg
  level := n.level - 1
  nrChildren := k
  stray := false
  entries := fun i => if i < k then .frame (pa + i * pageSize (n.level - 1)) prop else .absent

/-- One new node in the table of `root`. -/
inductive GrowStep (root : ℕ) (m m' : Mem P) : Prop
  /-- an absent entry gets an empty node -/
  | alloc {va l q pa : ℕ} {n : Node P} (hp : Position m root va l q n) (hl : 2 ≤ l)
      (hs : n.stray = false) (he : n.entries (pteIndex va l) = .absent)
      (ha : Attached m m' q (pteIndex va l) pa n (Node.empty n.cfg (n.level - 1)))
  /-- a huge page is split -/
  | split {va l q pa fpa : ℕ} {prop : P} {n : Node P} (hp : Position m root va l q n) (hl : 2 ≤ l)
      (hs : n.stray = false) (he : n.entries (pteIndex va l) = .frame fpa prop)
      (ha : Attached m m' q (pteIndex va l) pa n (n.splitUpTo fpa prop 512))

/-- What the frame allocator promises: the frames that it is going to return are not in
use, and no frame is returned twice. -/
structure Mem.PoolFresh (m : Mem P) : Prop where
  nodup : m.pool.Nodup
  unused : ∀ pa ∈ m.pool, m.refCount pa = 0

/-- The first frame of the pool is used. -/
theorem Mem.PoolFresh.rest (h : m.PoolFresh) (hpool : m.pool = pa :: m'.pool)
    (hrc : m'.refCount = Function.update m.refCount pa 1) : m'.PoolFresh := by
  have hnodup := h.nodup
  rw [hpool, List.nodup_cons] at hnodup
  refine ⟨hnodup.2, ?_⟩
  intro p hp
  have hne : p ≠ pa := by
    rintro rfl
    exact hnodup.1 hp
  rw [hrc, Function.update_of_ne hne]
  exact h.unused p (by rw [hpool]; exact List.mem_cons_of_mem pa hp)

/-- Any number of new nodes in the table of `root`. -/
def Grow (root : ℕ) : Mem P → Mem P → Prop := Relation.ReflTransGen (GrowStep root)

theorem attachable_empty (hl : 2 ≤ n.level) (hs : n.stray = false) :
    Attachable n (Node.empty n.cfg (n.level - 1)) where
  level := by simp only [Node.empty]; omega
  level_pos := by simp only [Node.empty]; omega
  cfg := rfl
  stray := hs.symm
  count := (Node.presentCount_eq_zero_iff.mpr (fun _ _ => rfl)).symm
  noTable := fun _ _ h => by cases h
  leaf := fun _ _ _ h => by cases h

theorem attachable_split {prop : P} (hl : 2 ≤ n.level) (h4 : n.level ≤ 4) (hs : n.stray = false)
    (hleaf : n.MapsFrames) :
    Attachable n (n.splitUpTo pa prop 512) where
  level := by simp only [Node.splitUpTo]; omega
  level_pos := by simp only [Node.splitUpTo]; omega
  cfg := rfl
  stray := hs.symm
  count := by
    rw [Node.presentCount_of_full]
    · rfl
    · simp only [Node.splitUpTo]; omega
    · intro i hi
      simp only [Node.splitUpTo, if_pos hi, Pte.isPresent_frame]
  noTable := by
    intro i p h
    simp only [Node.splitUpTo] at h
    split at h <;> cases h
  leaf := fun _ _ _ _ => hleaf

/-- An empty node translates nothing. -/
theorem walkFrom_empty {cfg : PageTableConfig P} {lv : ℕ}
    (hq : m.nodes q = some (Node.empty cfg lv)) : walkFrom m l q x = none := by
  cases l with
  | zero => rfl
  | succ k => exact walkFrom_absent (by omega) (by rw [Mem.entry_eq hq]; rfl)

/-- **Splitting is exact.**  The pages of the new node translate as the huge page. -/
theorem walkFrom_split {prop : P} (hl : 2 ≤ l)
    (hnl : n.level = l) (hq : m.nodes q = some (n.splitUpTo pa prop 512)) :
    walkFrom m (l - 1) q x = some (pa + x % pageSize l, prop) := by
  have hent : m.entry q (pteIndex x (l - 1)) =
      .frame (pa + pteIndex x (l - 1) * pageSize (l - 1)) prop := by
    rw [Mem.entry_eq hq]
    simp only [Node.splitUpTo, if_pos (pteIndex_lt x (l - 1)), hnl]
  have hsize : pageSize l = pageSize (l - 1) * 512 := by
    have := pageSize_succ (show 1 ≤ l - 1 by omega)
    rw [Nat.sub_add_cancel (by omega)] at this
    omega
  have hmod : x % pageSize l =
      x % pageSize (l - 1) + pageSize (l - 1) * pteIndex x (l - 1) := by
    rw [hsize, Nat.mod_mul, pteIndex_eq]
  rw [walkFrom_frame (by omega) hent, hmod]
  congr 2
  ring

namespace GrowStep

variable {m m' : Mem P} {root : ℕ}

theorem wellFormed (hg : GrowStep root m m') (h : WellFormed m) : WellFormed m' := by
  cases hg with
  | alloc hp hl hs he ha =>
      have hnl := hp.level_eq h
      exact h.attach ha hp.node (hp.slot h) (fun d hd => by rw [he] at hd; cases hd)
        (attachable_empty (by omega) hs)
  | split hp hl hs he ha =>
      have hnl := hp.level_eq h
      have hn := h.ok _ _ hp.node
      exact h.attach ha hp.node (hp.slot h) (fun d hd => by rw [he] at hd; cases hd)
        (attachable_split (by omega) hn.level_le hs (hn.leaf _ _ _ (hp.slot h) he))

theorem keeps (hg : GrowStep root m m') (h : WellFormed m) :
    Keeps m m' root (fun _ => False) := by
  cases hg with
  | @alloc va l q pa n hp hl hs he ha =>
      refine ha.keeps hp h (fun d hd => by rw [he] at hd; cases hd) ?_
      intro x hx
      rw [walkFrom_empty (ha.nodes_child (ha.fresh h hp.node).symm)]
      have hidx := pteIndex_of_slotNo hp.level_pos le_rfl hp.level_le hx
      rw [walkFrom_absent hp.level_pos (by rw [Mem.entry_eq hp.node, hidx, he])]
  | @split va l q pa fpa prop n hp hl hs he ha =>
      refine ha.keeps hp h (fun d hd => by rw [he] at hd; cases hd) ?_
      intro x hx
      rw [walkFrom_split hl (hp.level_eq h) (ha.nodes_child (ha.fresh h hp.node).symm)]
      have hidx := pteIndex_of_slotNo hp.level_pos le_rfl hp.level_le hx
      rw [walkFrom_frame hp.level_pos (by rw [Mem.entry_eq hp.node, hidx, he])]

end GrowStep

namespace Grow

variable {m m' m'' : Mem P} {root : ℕ}

theorem refl (root : ℕ) (m : Mem P) : Grow root m m := Relation.ReflTransGen.refl

theorem trans (h : Grow root m m') (h' : Grow root m' m'') : Grow root m m'' :=
  Relation.ReflTransGen.trans h h'

theorem single (h : GrowStep root m m') : Grow root m m' := Relation.ReflTransGen.single h

theorem wellFormed (hg : Grow root m m') (h : WellFormed m) : WellFormed m' := by
  induction hg with
  | refl => exact h
  | tail _ hstep ih => exact hstep.wellFormed ih

/-- New nodes are made in frames of the pool. -/
theorem poolFresh (hg : Grow root m m') (h : m.PoolFresh) : m'.PoolFresh := by
  induction hg with
  | refl => exact h
  | tail _ hstep ih =>
      cases hstep with
      | alloc _ _ _ _ ha => exact ih.rest ha.pool ha.refCount
      | split _ _ _ _ ha => exact ih.rest ha.pool ha.refCount

/-- A bound on the reference counts of children holds for the new ones too. -/
theorem refCount_lt (hg : Grow root m m') (hW : WellFormed m) {B : ℕ} (hB : 1 < B)
    (h : ∀ p i c, Owns m p i c → m.refCount c < B) :
    ∀ p i c, Owns m' p i c → m'.refCount c < B := by
  induction hg with
  | refl => exact h
  | @tail m₁ m₂ hg' hstep ih =>
      have hW₁ := Grow.wellFormed hg' hW
      -- the new child has one reference, and the other ones keep theirs
      have hcase : ∀ {q idx pa : ℕ} {n c : Node P}, m₁.nodes q = some n → Attachable n c →
          Attached m₁ m₂ q idx pa n c → ∀ p i d, Owns m₂ p i d → m₂.refCount d < B := by
        intro q idx pa n c hq hc ha p i d hown
        rw [ha.refCount]
        by_cases hd : d = pa
        · rw [hd, Function.update_self]
          exact hB
        · rw [Function.update_of_ne hd]
          rcases ha.owns_cases hq hc hown with ⟨-, -, rfl⟩ | hold
          · exact absurd rfl hd
          · exact ih p i d hold
      cases hstep with
      | alloc hp hl hs he ha =>
          have hnl := hp.level_eq hW₁
          exact hcase hp.node (attachable_empty (by omega) hs) ha
      | split hp hl hs he ha =>
          have hnl := hp.level_eq hW₁
          have hn := hW₁.ok _ _ hp.node
          exact hcase hp.node (attachable_split (by omega) hn.level_le hs
            (hn.leaf _ _ _ (hp.slot hW₁) he)) ha

theorem keeps (hg : Grow root m m') (h : WellFormed m) : Keeps m m' root (fun _ => False) := by
  induction hg with
  | refl => exact Keeps.refl _ _ _
  | tail hg' hstep ih => exact ih.trans (hstep.keeps (Grow.wellFormed hg' h))

end Grow

end Vostd
