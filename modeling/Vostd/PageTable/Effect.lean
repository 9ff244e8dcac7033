/-
# What the node operations do to a table

Every modification of a page table is one of two: an entry of a node is
overwritten by a frame or cleared (`Mem.put`), or a new node is attached to an
entry that was no child before (`Attached`).  Both keep the memory well formed.

`Keeps m m' root R` says what the step from `m` to `m'` leaves alone: outside the
address set `R` of the table `root`, every walk through managed entries still
visits the nodes it visited and translates as it did.  It composes, so the
effect of a cursor operation is the composition of the effects of its steps.
Attaching nodes changes no translation at all (`Grow.keeps`).
-/
import Vostd.PageTable.WellFormed

namespace Vostd

open Function

variable {P : Type} {m : Mem P} {q idx p : ℕ} {n : Node P} {e : Pte P}

/-! ## Overwriting an entry -/

/-- The memory with another entry in a node. -/
def Mem.put (m : Mem P) (q : ℕ) (n : Node P) (idx : ℕ) (e : Pte P) : Mem P :=
  m.setNode q (n.set idx e)

/-- The nodes of the new memory, seen from the old one. -/
theorem Mem.put_nodes_cases {k : Node P} (h : (m.put q n idx e).nodes p = some k) :
    (p = q ∧ k = n.set idx e) ∨ (p ≠ q ∧ m.nodes p = some k) := by
  by_cases hp : p = q
  · subst hp
    rw [Mem.put, Mem.setNode_nodes_self] at h
    exact Or.inl ⟨rfl, (Option.some.inj h).symm⟩
  · rw [Mem.put, Mem.setNode_nodes_of_ne _ _ hp] at h
    exact Or.inr ⟨hp, h⟩

/-- Every node survives with its level, configuration and stray mark. -/
theorem Mem.put_nodes_of {k : Node P} (idx : ℕ) (e : Pte P)
    (hq : m.nodes q = some n) (h : m.nodes p = some k) :
    ∃ k', (m.put q n idx e).nodes p = some k' ∧ k'.level = k.level ∧ k'.cfg = k.cfg ∧
      k'.stray = k.stray := by
  by_cases hp : p = q
  · subst hp
    rw [hq] at h
    obtain rfl := Option.some.inj h
    exact ⟨n.set idx e, by rw [Mem.put, Mem.setNode_nodes_self], by simp, by simp, by simp⟩
  · exact ⟨k, by rw [Mem.put, Mem.setNode_nodes_of_ne _ _ hp, h], rfl, rfl, rfl⟩

theorem Mem.put_owns {i c : ℕ}
    (hq : m.nodes q = some n) (he : e.node? = none) (h : Owns (m.put q n idx e) p i c) :
    Owns m p i c ∧ (p = q → i ≠ idx) := by
  obtain ⟨k, hk, hslot, hent⟩ := h
  rcases Mem.put_nodes_cases hk with ⟨rfl, rfl⟩ | ⟨hp, hk'⟩
  · rw [Node.set_slots] at hslot
    rw [Node.set_entries] at hent
    have hi : i ≠ idx := by
      rintro rfl
      rw [update_self] at hent
      rw [hent] at he
      exact Option.some_ne_none _ he
    rw [update_of_ne hi] at hent
    exact ⟨⟨n, hq, hslot, hent⟩, fun _ => hi⟩
  · exact ⟨⟨k, hk', hslot, hent⟩, fun h => absurd h hp⟩

/-- **Overwriting an entry keeps the memory well formed**, unless it removes a
child that other tables repeat. -/
theorem WellFormed.put (h : WellFormed m)
    (hq : m.nodes q = some n) (hidx : n.slots.Contains idx) (he : e.node? = none)
    (hleaf : ∀ pa prop, e = .frame pa prop → n.MapsFrames)
    (hun : ∀ c, n.entries idx = .table c → n.level = 4 → n.cfg.topLevelCanUnmap = true) :
    WellFormed (m.put q n idx e) where
  ok := by
    intro p k hk
    have hold : ∃ k₀, m.nodes p = some k₀ ∧ k.level = k₀.level ∧ k.cfg = k₀.cfg ∧
        k.stray = k₀.stray ∧ k.slots = k₀.slots := by
      rcases Mem.put_nodes_cases hk with ⟨rfl, rfl⟩ | ⟨-, hk'⟩
      · exact ⟨n, hq, by simp, by simp, by simp, by simp⟩
      · exact ⟨k, hk', rfl, rfl, rfl, rfl⟩
    obtain ⟨k₀, hk₀, hl, hcfg, hstray, hslots⟩ := hold
    have hok := h.ok p k₀ hk₀
    refine ⟨hl ▸ hok.level_pos, hl ▸ hok.level_le, hok.alive, ?_, ?_, ?_⟩
    · rcases Mem.put_nodes_cases hk with ⟨rfl, rfl⟩ | ⟨-, hk'⟩
      · exact Node.set_nrChildren n idx e
      · exact (h.ok p k hk').count
    · intro i c hi hent
      obtain ⟨⟨k₁, hk₁, hslot, hent'⟩, -⟩ := Mem.put_owns hq he ⟨k, hk, hi, hent⟩
      rw [hk₀] at hk₁
      obtain rfl := Option.some.inj hk₁
      obtain ⟨d, hd, hdl, hdc, hds⟩ := hok.child i c hslot hent'
      obtain ⟨d', hd', hl', hc', hs'⟩ := Mem.put_nodes_of idx e hq hd
      exact ⟨d', hd', by omega, by rw [hc', hdc, hcfg], by rw [hs', hds, hstray]⟩
    · intro i pa prop hi hent
      rcases Mem.put_nodes_cases hk with ⟨rfl, rfl⟩ | ⟨-, hk'⟩
      · by_cases hii : i = idx
        · subst hii
          rw [Node.set_entries, update_self] at hent
          rw [Node.MapsFrames, Node.set_level, Node.set_cfg]
          exact hleaf pa prop hent
        · rw [Node.set_entries, update_of_ne hii] at hent
          rw [Node.MapsFrames, Node.set_level, Node.set_cfg]
          exact (h.ok _ n hq).leaf i pa prop (by simpa using hi) hent
      · exact (h.ok p k hk').leaf i pa prop hi hent
  unique := by
    intro p i p' i' c hp hp'
    exact h.unique (Mem.put_owns hq he hp).1 (Mem.put_owns hq he hp').1
  borrowed := by
    intro r k i c hk hi hun' hent
    have hold : ∃ k₀, m.nodes r = some k₀ ∧ ¬k₀.slots.Contains i ∧ k₀.entries i = .table c := by
      rcases Mem.put_nodes_cases hk with ⟨rfl, rfl⟩ | ⟨-, hk'⟩
      · rw [Node.set_slots] at hun'
        rw [Node.set_entries, update_of_ne (by rintro rfl; exact hun' hidx)] at hent
        exact ⟨n, hq, hun', hent⟩
      · exact ⟨k, hk', hun', hent⟩
    obtain ⟨k₀, hk₀, hun₀, hent₀⟩ := hold
    obtain ⟨r', k', hk', hl', hcan, hslot, hent'⟩ := h.borrowed r k₀ i c hk₀ hi hun₀ hent₀
    by_cases hr : r' = q
    · subst hr
      rw [hq] at hk'
      obtain rfl := Option.some.inj hk'
      have hii : i ≠ idx := by
        rintro rfl
        rw [hun c hent' hl'] at hcan
        exact Bool.noConfusion hcan
      refine ⟨r', n.set idx e, by rw [Mem.put, Mem.setNode_nodes_self], by simpa using hl',
        by simpa using hcan, by simpa using hslot, ?_⟩
      rw [Node.set_entries, update_of_ne hii]
      exact hent'
    · exact ⟨r', k', by rw [Mem.put, Mem.setNode_nodes_of_ne _ _ hr, hk'], hl', hcan, hslot, hent'⟩

/-! ## Attaching a node -/

/-- The unused frame `pa` becomes the node `c` and the child in an entry of `q`. -/
structure Attached (m m' : Mem P) (q idx pa : ℕ) (n c : Node P) : Prop where
  unused : m.refCount pa = 0
  nodes : m'.nodes =
    update (update m.nodes pa (some c)) q (some (n.set idx (.table pa)))
  refCount : m'.refCount = update m.refCount pa 1
  pool : m.pool = pa :: m'.pool

/-- What makes `c` a node that can be attached below `n`. -/
structure Attachable (n c : Node P) : Prop where
  level : c.level + 1 = n.level
  level_pos : 1 ≤ c.level
  cfg : c.cfg = n.cfg
  stray : c.stray = n.stray
  count : c.nrChildren = c.presentCount
  noTable : ∀ i p, c.entries i ≠ .table p
  leaf : ∀ i pa prop, c.entries i = .frame pa prop → n.MapsFrames

namespace Attached

variable {m m' : Mem P} {q idx pa : ℕ} {n c : Node P}

theorem nodes_parent (ha : Attached m m' q idx pa n c) :
    m'.nodes q = some (n.set idx (.table pa)) := by
  rw [ha.nodes, update_self]

theorem nodes_child (ha : Attached m m' q idx pa n c) (hne : pa ≠ q) : m'.nodes pa = some c := by
  rw [ha.nodes, update_of_ne hne, update_self]

theorem nodes_other (ha : Attached m m' q idx pa n c) {p : ℕ} (hq : p ≠ q) (hpa : p ≠ pa) :
    m'.nodes p = m.nodes p := by
  rw [ha.nodes, update_of_ne hq, update_of_ne hpa]

/-- The new node was not a node before. -/
theorem fresh (ha : Attached m m' q idx pa n c) (h : WellFormed m) {p : ℕ} {k : Node P}
    (hp : m.nodes p = some k) : p ≠ pa := by
  rintro rfl
  exact (h.ok p k hp).alive ha.unused

theorem nodes_cases (ha : Attached m m' q idx pa n c) {p : ℕ} {k : Node P}
    (h : m'.nodes p = some k) :
    (p = q ∧ k = n.set idx (.table pa)) ∨ (p ≠ q ∧ p = pa ∧ k = c) ∨
      (p ≠ q ∧ p ≠ pa ∧ m.nodes p = some k) := by
  by_cases hp : p = q
  · subst hp
    rw [ha.nodes_parent] at h
    exact Or.inl ⟨rfl, (Option.some.inj h).symm⟩
  · by_cases hpa : p = pa
    · subst hpa
      rw [ha.nodes_child hp] at h
      exact Or.inr (Or.inl ⟨hp, rfl, (Option.some.inj h).symm⟩)
    · rw [ha.nodes_other hp hpa] at h
      exact Or.inr (Or.inr ⟨hp, hpa, h⟩)

/-- Every node survives with its level, configuration and stray mark. -/
theorem nodes_of (ha : Attached m m' q idx pa n c) (h : WellFormed m) (hq : m.nodes q = some n)
    {p : ℕ} {k : Node P} (hp : m.nodes p = some k) :
    ∃ k', m'.nodes p = some k' ∧ k'.level = k.level ∧ k'.cfg = k.cfg ∧ k'.stray = k.stray := by
  by_cases hpq : p = q
  · subst hpq
    rw [hq] at hp
    obtain rfl := Option.some.inj hp
    exact ⟨_, ha.nodes_parent, by simp, by simp, by simp⟩
  · exact ⟨k, by rw [ha.nodes_other hpq (ha.fresh h hp), hp], rfl, rfl, rfl⟩

/-- The owners in the new memory: the new child has its entry, the other ones the
entry they had. -/
theorem owns_cases (ha : Attached m m' q idx pa n c) (hq : m.nodes q = some n)
    (hc : Attachable n c) {p i d : ℕ} (h : Owns m' p i d) :
    (p = q ∧ i = idx ∧ d = pa) ∨ Owns m p i d := by
  obtain ⟨k, hk, hslot, hent⟩ := h
  rcases ha.nodes_cases hk with ⟨rfl, rfl⟩ | ⟨-, -, rfl⟩ | ⟨-, -, hk'⟩
  · rw [Node.set_entries] at hent
    by_cases hi : i = idx
    · subst hi
      rw [update_self] at hent
      injection hent with hd
      exact Or.inl ⟨rfl, rfl, hd.symm⟩
    · rw [update_of_ne hi] at hent
      exact Or.inr ⟨n, hq, by simpa using hslot, hent⟩
  · exact absurd hent (hc.noTable i d)
  · exact Or.inr ⟨k, hk', hslot, hent⟩

/-- The nodes are alive. -/
theorem alive (ha : Attached m m' q idx pa n c) (h : WellFormed m) (hq : m.nodes q = some n)
    {p : ℕ} {k : Node P} (hk : m'.nodes p = some k) : m'.refCount p ≠ 0 := by
  rw [ha.refCount]
  by_cases hp : p = pa
  · rw [hp, update_self]
    exact one_ne_zero
  · rw [update_of_ne hp]
    rcases ha.nodes_cases hk with ⟨rfl, -⟩ | ⟨-, hp', -⟩ | ⟨-, -, hk'⟩
    · exact (h.ok _ n hq).alive
    · exact absurd hp' hp
    · exact (h.ok p k hk').alive

/-- The node that the new one is attached to. -/
theorem nodeOK_parent (ha : Attached m m' q idx pa n c) (h : WellFormed m)
    (hq : m.nodes q = some n) (hc : Attachable n c) :
    NodeOK m' q (n.set idx (.table pa)) := by
  have hn := h.ok q n hq
  refine ⟨by simpa using hn.level_pos, by simpa using hn.level_le,
    ha.alive h hq ha.nodes_parent, Node.set_nrChildren _ _ _, ?_, ?_⟩
  · intro i d hi hent
    rw [Node.set_slots] at hi
    by_cases hii : i = idx
    · subst hii
      rw [Node.set_entries, update_self] at hent
      injection hent with hd
      subst hd
      refine ⟨c, ha.nodes_child (ha.fresh h hq).symm, ?_, ?_, ?_⟩
      · rw [hc.level, Node.set_level]
      · rw [hc.cfg, Node.set_cfg]
      · rw [hc.stray, Node.set_stray]
    · rw [Node.set_entries, update_of_ne hii] at hent
      obtain ⟨k, hk, hkl, hkc, hks⟩ := hn.child i d hi hent
      obtain ⟨k', hk', hl', hc', hs'⟩ := ha.nodes_of h hq hk
      exact ⟨k', hk', by rw [hl', hkl, Node.set_level], by rw [hc', hkc, Node.set_cfg],
        by rw [hs', hks, Node.set_stray]⟩
  · intro i pa' prop hi hent
    rw [Node.set_slots] at hi
    have hii : i ≠ idx := by
      rintro rfl
      rw [Node.set_entries, update_self] at hent
      cases hent
    rw [Node.set_entries, update_of_ne hii] at hent
    rw [Node.MapsFrames, Node.set_level, Node.set_cfg]
    exact hn.leaf i pa' prop hi hent

/-- The new node. -/
theorem nodeOK_child (ha : Attached m m' q idx pa n c) (h : WellFormed m)
    (hq : m.nodes q = some n) (hc : Attachable n c) : NodeOK m' pa c := by
  have hn := h.ok q n hq
  have hcl := hc.level
  have hnl := hn.level_le
  refine ⟨hc.level_pos, by omega, ha.alive h hq (ha.nodes_child (ha.fresh h hq).symm), hc.count,
    ?_, ?_⟩
  · intro i d _ hent
    exact absurd hent (hc.noTable i d)
  · intro i pa' prop _ hent
    have := hc.leaf i pa' prop hent
    rw [Node.MapsFrames, hc.cfg]
    omega

/-- The other nodes. -/
theorem nodeOK_other (ha : Attached m m' q idx pa n c) (h : WellFormed m)
    (hq : m.nodes q = some n) {p : ℕ} {k : Node P} (hk : m.nodes p = some k)
    (hk' : m'.nodes p = some k) : NodeOK m' p k := by
  have hok := h.ok p k hk
  refine ⟨hok.level_pos, hok.level_le, ha.alive h hq hk', hok.count, ?_, hok.leaf⟩
  intro i d hi hent
  obtain ⟨k₁, hk₁, hkl, hkc, hks⟩ := hok.child i d hi hent
  obtain ⟨k₂, hk₂, hl', hc', hs'⟩ := ha.nodes_of h hq hk₁
  exact ⟨k₂, hk₂, by rw [hl', hkl], by rw [hc', hkc], by rw [hs', hks]⟩

end Attached

/-- **Attaching a node keeps the memory well formed.** -/
theorem WellFormed.attach {m' : Mem P} (h : WellFormed m) {pa : ℕ} {c : Node P}
    (ha : Attached m m' q idx pa n c) (hq : m.nodes q = some n) (hidx : n.slots.Contains idx)
    (hold : ∀ d, n.entries idx ≠ .table d) (hc : Attachable n c) : WellFormed m' where
  ok := by
    intro p k hk
    rcases ha.nodes_cases hk with ⟨rfl, rfl⟩ | ⟨-, rfl, rfl⟩ | ⟨-, -, hk'⟩
    · exact ha.nodeOK_parent h hq hc
    · exact ha.nodeOK_child h hq hc
    · exact ha.nodeOK_other h hq hk' hk
  unique := by
    intro p i p' i' d hp hp'
    -- nothing pointed to the new node before
    have hnew : ∀ p i, ¬Owns m p i pa := by
      rintro p i ⟨k, hk, hi, hent⟩
      obtain ⟨k', hk', -⟩ := (h.ok p k hk).child i pa hi hent
      exact ha.fresh h hk' rfl
    rcases ha.owns_cases hq hc hp with ⟨rfl, rfl, rfl⟩ | hp₀ <;>
      rcases ha.owns_cases hq hc hp' with ⟨rfl, rfl, hd⟩ | hp₁
    · exact ⟨rfl, rfl⟩
    · exact absurd hp₁ (hnew _ _)
    · exact absurd (hd ▸ hp₀) (hnew _ _)
    · exact h.unique hp₀ hp₁
  borrowed := by
    intro r k i d hk hi hun hent
    have hold' : ∃ k₀, m.nodes r = some k₀ ∧ ¬k₀.slots.Contains i ∧ k₀.entries i = .table d := by
      rcases ha.nodes_cases hk with ⟨rfl, rfl⟩ | ⟨-, -, rfl⟩ | ⟨-, -, hk'⟩
      · rw [Node.set_slots] at hun
        rw [Node.set_entries, update_of_ne (by rintro rfl; exact hun hidx)] at hent
        exact ⟨n, hq, hun, hent⟩
      · exact absurd hent (hc.noTable i d)
      · exact ⟨k, hk', hun, hent⟩
    obtain ⟨k₀, hk₀, hun₀, hent₀⟩ := hold'
    obtain ⟨r', k', hk', hl', hcan, hslot, hent'⟩ := h.borrowed r k₀ i d hk₀ hi hun₀ hent₀
    by_cases hr : r' = q
    · subst hr
      rw [hq] at hk'
      obtain rfl := Option.some.inj hk'
      have hii : i ≠ idx := by
        rintro rfl
        exact hold d hent'
      refine ⟨r', _, ha.nodes_parent, by simpa using hl', by simpa using hcan,
        by simpa using hslot, ?_⟩
      rw [Node.set_entries, update_of_ne hii]
      exact hent'
    · exact ⟨r', k', by rw [ha.nodes_other hr (ha.fresh h hk'), hk'], hl', hcan, hslot, hent'⟩

/-! ## The walks that a changed entry concerns -/

/-- `m'` is `m` with another entry `idx` in node `q`, and possibly new nodes. -/
structure ChangesEntry (m m' : Mem P) (q idx : ℕ) : Prop where
  other : ∀ p k, p ≠ q → m.nodes p = some k → m'.nodes p = some k
  self : ∀ n, m.nodes q = some n → ∃ n', m'.nodes q = some n' ∧ n'.level = n.level ∧
    n'.cfg = n.cfg ∧ n'.stray = n.stray ∧ ∀ i, i ≠ idx → n'.entries i = n.entries i

theorem changesEntry_put (hq : m.nodes q = some n) (idx : ℕ)
    (e : Pte P) : ChangesEntry m (m.put q n idx e) q idx where
  other := by
    intro p k hp hk
    rw [Mem.put, Mem.setNode_nodes_of_ne _ _ hp, hk]
  self := by
    intro n' hn'
    rw [hq] at hn'
    obtain rfl := Option.some.inj hn'
    refine ⟨n.set idx e, by rw [Mem.put, Mem.setNode_nodes_self], by simp, by simp, by simp, ?_⟩
    intro i hi
    rw [Node.set_entries, update_of_ne hi]

theorem Attached.changesEntry {m' : Mem P} {pa : ℕ} {c : Node P}
    (ha : Attached m m' q idx pa n c) (h : WellFormed m) (hq : m.nodes q = some n) :
    ChangesEntry m m' q idx where
  other := by
    intro p k hp hk
    rw [ha.nodes_other hp (ha.fresh h hk), hk]
  self := by
    intro n' hn'
    rw [hq] at hn'
    obtain rfl := Option.some.inj hn'
    refine ⟨_, ha.nodes_parent, by simp, by simp, by simp, ?_⟩
    intro i hi
    rw [Node.set_entries, update_of_ne hi]

/-- A position in a table: the walk of `va` from `root` visits `q` at level `l`. -/
structure Position (m : Mem P) (root va l q : ℕ) (n : Node P) : Prop where
  covers : Covers m root va
  level_pos : 1 ≤ l
  level_le : l ≤ 4
  nodeAt : nodeAt m root va l = some q
  node : m.nodes q = some n

namespace Position

variable {m m' : Mem P} {root va l q : ℕ} {n : Node P}

theorem level_eq (hp : Position m root va l q n) (h : WellFormed m) : n.level = l := by
  obtain ⟨n', hn', hl, -⟩ := h.reach_of_covers hp.covers hp.level_pos hp.level_le hp.nodeAt
  rw [hp.node] at hn'
  obtain rfl := Option.some.inj hn'
  exact hl

theorem slot (hp : Position m root va l q n) (h : WellFormed m) :
    n.slots.Contains (pteIndex va l) := by
  obtain ⟨n', hn', -, hs⟩ := h.reach_of_covers hp.covers hp.level_pos hp.level_le hp.nodeAt
  rw [hp.node] at hn'
  obtain rfl := Option.some.inj hn'
  exact hs

/-- **Only the walks of the slot read a changed entry.** -/
theorem agreeAt (hp : Position m root va l q n) (h : WellFormed m)
    (hc : ChangesEntry m m' q (pteIndex va l)) {r x k : ℕ} (hx : Covers m r x) (hk : 1 ≤ k)
    (hk4 : k ≤ 4) (hne : k = l → r = root → slotNo l x ≠ slotNo l va) : AgreeAt m m' r x k := by
  intro p hpk
  obtain ⟨j, hj, -⟩ := h.reach_of_covers hx hk hk4 hpk
  by_cases hpq : p = q
  · subst hpq
    obtain ⟨hr, hkl, hs⟩ := h.nodeAt_inj hx hp.covers hk hk4 hp.level_pos hp.level_le hpk hp.nodeAt
    subst hkl
    have hidx : pteIndex x k ≠ pteIndex va k := by
      intro hi
      exact hne rfl hr ((slotNo_eq_iff hk hk4 x va).mpr ⟨hs, hi⟩)
    obtain ⟨n', hn', -, -, -, hent⟩ := hc.self n hp.node
    rw [Mem.entry_eq hn', Mem.entry_eq hp.node, hent _ hidx]
  · rw [Mem.entry_eq (hc.other p j hpq hj), Mem.entry_eq hj]

/-- Walks above the changed entry are as before. -/
theorem nodeAt_above (hp : Position m root va l q n) (h : WellFormed m)
    (hc : ChangesEntry m m' q (pteIndex va l)) {r x k : ℕ} (hx : Covers m r x) (hk : l ≤ k)
    (hk4 : k ≤ 4) : Vostd.nodeAt m' r x k = Vostd.nodeAt m r x k := by
  have hl := hp.level_pos
  refine nodeAt_eq_of_agree hk4 ?_
  intro j hj hj4
  exact hp.agreeAt h hc hx (by omega) hj4 (fun hjl => absurd hjl (by omega))

/-- Walks beside the changed entry are as before. -/
theorem nodeAt_beside (hp : Position m root va l q n) (h : WellFormed m)
    (hc : ChangesEntry m m' q (pteIndex va l)) {r x k : ℕ} (hx : Covers m r x) (hk : 1 ≤ k)
    (hk4 : k ≤ 4) (hne : r = root → slotNo l x ≠ slotNo l va) :
    Vostd.nodeAt m' r x k = Vostd.nodeAt m r x k := by
  refine nodeAt_eq_of_agree hk4 ?_
  intro j hj hj4
  exact hp.agreeAt h hc hx (by omega) hj4 (fun _ => hne)

theorem pageWalk_beside (hp : Position m root va l q n) (h : WellFormed m)
    (hc : ChangesEntry m m' q (pteIndex va l)) {r x : ℕ} (hx : Covers m r x)
    (hne : r = root → slotNo l x ≠ slotNo l va) : pageWalk m' r x = pageWalk m r x := by
  refine pageWalk_eq_of_agree ?_
  intro j hj hj4
  exact hp.agreeAt h hc hx hj hj4 (fun _ => hne)

/-- Every address of the slot has the same position. -/
theorem of_slot (hp : Position m root va l q n) {x : ℕ}
    (hs : slotNo (l + 1) x = slotNo (l + 1) va) (hx : Covers m root x) :
    Position m root x l q n where
  covers := hx
  level_pos := hp.level_pos
  level_le := hp.level_le
  nodeAt := by rw [nodeAt_congr hp.level_le hs, hp.nodeAt]
  node := hp.node

end Position

end Vostd
