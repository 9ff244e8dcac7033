/-
# Well-formed page table memories

The invariant of a memory that holds page tables is local: it speaks about a
node, its entries and the nodes they point to (`NodeOK`), and it says that no
node is the child of two managed slots (`WellFormed.unique`).  A user table also
has entries that it does not manage, the kernel half of its root; they repeat
entries of a table whose top-level entries are never unmapped
(`WellFormed.borrowed`).

Two facts about walks follow.  A walk through managed entries finds at level `l`
a node recorded with level `l` (`WellFormed.reach`), and it is the only walk that
finds this node, up to the part of the address below it
(`WellFormed.nodeAt_inj`).
-/
import Vostd.PageTable.Walk

namespace Vostd

variable {P : Type}

/-! ## Counting present entries -/

namespace Node

theorem slots_lt {n : Node P} {i : ℕ} (h : n.slots.Contains i) : i < 512 := by
  obtain ⟨-, hi⟩ := h
  have hle := n.cfg.index_le
  unfold slots NR_ENTRIES at hi
  split at hi
  · omega
  · exact hi

theorem slots_of_level_lt {n : Node P} {i : ℕ} (hl : n.level < 4) (hi : i < 512) :
    n.slots.Contains i := by
  unfold slots
  rw [if_neg (by unfold NR_LEVELS; omega)]
  exact ⟨Nat.zero_le _, hi⟩

/-- A node with a new entry, its counter following. -/
def set (n : Node P) (idx : ℕ) (e : Pte P) : Node P :=
  { n with
    entries := Function.update n.entries idx e
    nrChildren := countPresent n.slots (Function.update n.entries idx e) }

@[simp] theorem set_cfg (n : Node P) (idx : ℕ) (e : Pte P) : (n.set idx e).cfg = n.cfg := by
  unfold set
  rfl

@[simp] theorem set_level (n : Node P) (idx : ℕ) (e : Pte P) : (n.set idx e).level = n.level := by
  unfold set
  rfl

@[simp] theorem set_stray (n : Node P) (idx : ℕ) (e : Pte P) : (n.set idx e).stray = n.stray := by
  unfold set
  rfl

@[simp] theorem set_slots (n : Node P) (idx : ℕ) (e : Pte P) : (n.set idx e).slots = n.slots := by
  unfold slots
  rw [set_level, set_cfg]

@[simp] theorem set_entries (n : Node P) (idx : ℕ) (e : Pte P) :
    (n.set idx e).entries = Function.update n.entries idx e := by
  unfold set
  rfl

theorem set_nrChildren (n : Node P) (idx : ℕ) (e : Pte P) :
    (n.set idx e).nrChildren = (n.set idx e).presentCount := by
  rw [presentCount, set_slots, set_entries, set]

theorem presentCount_le (n : Node P) : n.presentCount ≤ 512 := by
  unfold presentCount countPresent
  exact (Finset.card_filter_le _ _).trans (by rw [Finset.card_range])

/-- The count as a sum over the slots. -/
theorem presentCount_eq_sum (n : Node P) : n.presentCount =
    ∑ i ∈ Finset.range 512,
      if n.slots.Contains i ∧ (n.entries i).isPresent = true then 1 else 0 := by
  unfold presentCount countPresent
  rw [Finset.card_filter]

/-- **The count follows one entry.** -/
theorem presentCount_set {n : Node P} {idx : ℕ} (h : n.slots.Contains idx) (e : Pte P) :
    (n.set idx e).presentCount + (if (n.entries idx).isPresent = true then 1 else 0) =
      n.presentCount + (if e.isPresent = true then 1 else 0) := by
  have hmem : idx ∈ Finset.range 512 := Finset.mem_range.mpr (slots_lt h)
  rw [presentCount_eq_sum, presentCount_eq_sum, ← Finset.add_sum_erase _ _ hmem,
    ← Finset.add_sum_erase (Finset.range 512)
      (fun i => if n.slots.Contains i ∧ (n.entries i).isPresent = true then 1 else 0) hmem]
  have hrest : ∑ i ∈ (Finset.range 512).erase idx,
        (if (n.set idx e).slots.Contains i ∧ ((n.set idx e).entries i).isPresent = true
          then 1 else 0) =
      ∑ i ∈ (Finset.range 512).erase idx,
        (if n.slots.Contains i ∧ (n.entries i).isPresent = true then 1 else 0) := by
    refine Finset.sum_congr rfl ?_
    intro i hi
    rw [set_slots, set_entries, Function.update_of_ne (Finset.ne_of_mem_erase hi)]
  rw [hrest]
  simp only [set_slots, set_entries, Function.update_self, h, true_and]
  omega

/-- An absent slot leaves room in the count. -/
theorem presentCount_lt {n : Node P} {idx : ℕ} (h : n.slots.Contains idx)
    (ha : (n.entries idx).isPresent = false) : n.presentCount < 512 := by
  have hset := presentCount_set h (.table 0)
  have hle := (n.set idx (.table 0)).presentCount_le
  simp only [ha, Pte.isPresent_table] at hset
  simp at hset
  omega

/-- A present slot is counted. -/
theorem presentCount_pos {n : Node P} {idx : ℕ} (h : n.slots.Contains idx)
    (hp : (n.entries idx).isPresent = true) : 0 < n.presentCount := by
  have hset := presentCount_set h .absent
  simp only [hp, Pte.isPresent_absent] at hset
  simp at hset
  omega

theorem presentCount_of_full {n : Node P} (hl : n.level < 4)
    (hall : ∀ i < 512, (n.entries i).isPresent = true) : n.presentCount = 512 := by
  unfold presentCount countPresent
  rw [Finset.filter_true_of_mem, Finset.card_range]
  intro i hi
  exact ⟨slots_of_level_lt hl (Finset.mem_range.mp hi), hall i (Finset.mem_range.mp hi)⟩

theorem presentCount_eq_zero_iff {n : Node P} :
    n.presentCount = 0 ↔ ∀ i, n.slots.Contains i → n.entries i = .absent := by
  unfold presentCount countPresent
  rw [Finset.card_eq_zero, Finset.filter_eq_empty_iff]
  constructor
  · intro h i hi
    have := h (Finset.mem_range.mpr (slots_lt hi))
    cases he : n.entries i with
    | absent => rfl
    | frame pa prop => exact absurd ⟨hi, by rw [he]; rfl⟩ this
    | table pa => exact absurd ⟨hi, by rw [he]; rfl⟩ this
  · rintro h i - ⟨hi, hp⟩
    rw [h i hi] at hp
    exact Bool.false_ne_true hp

end Node

/-! ## The invariant -/

/-- The managed entry `i` of node `p` points to the node `q`. -/
def Owns (m : Mem P) (p i q : ℕ) : Prop :=
  ∃ n, m.nodes p = some n ∧ n.slots.Contains i ∧ n.entries i = .table q

/-- The managed entry `i` of the node `q`, of level `l`, maps the frame at `pa`. -/
def LeafAt (m : Mem P) (cfg : PageTableConfig P) (q i l pa : ℕ) (prop : P) : Prop :=
  ∃ n, m.nodes q = some n ∧ n.cfg = cfg ∧ n.level = l ∧ n.slots.Contains i ∧
    n.entries i = .frame pa prop

/-- Frames can be mapped at the level of the node. -/
abbrev Node.MapsFrames (n : Node P) : Prop :=
  n.level ≤ n.cfg.highestTranslationLevel ∧ n.level ≤ n.cfg.maxItemLevel

/-- What holds of a single node. -/
structure NodeOK (m : Mem P) (q : ℕ) (n : Node P) : Prop where
  level_pos : 1 ≤ n.level
  level_le : n.level ≤ 4
  /-- the frame of the node is in use -/
  alive : m.refCount q ≠ 0
  /-- the counter is exact -/
  count : n.nrChildren = n.presentCount
  /-- a child is a live node one level lower -/
  child : ∀ i c, n.slots.Contains i → n.entries i = .table c →
    ∃ k, m.nodes c = some k ∧ k.level + 1 = n.level ∧ k.cfg = n.cfg ∧ k.stray = n.stray
  /-- a mapped frame is at a level at which frames can be mapped -/
  leaf : ∀ i pa prop, n.slots.Contains i → n.entries i = .frame pa prop → n.MapsFrames

/-- **The invariant of a page table memory.** -/
structure WellFormed (m : Mem P) : Prop where
  ok : ∀ q n, m.nodes q = some n → NodeOK m q n
  /-- no node is the child of two slots -/
  unique : ∀ {p i p' i' q}, Owns m p i q → Owns m p' i' q → p = p' ∧ i = i'
  /-- an entry that its table does not manage repeats one that is never unmapped -/
  borrowed : ∀ r n i c, m.nodes r = some n → i < 512 → ¬n.slots.Contains i →
    n.entries i = .table c →
    ∃ r' n', m.nodes r' = some n' ∧ n'.level = 4 ∧ n'.cfg.topLevelCanUnmap = false ∧
      n'.slots.Contains i ∧ n'.entries i = .table c

/-- `root` is the root node of a page table of configuration `cfg`. -/
def IsRoot (m : Mem P) (cfg : PageTableConfig P) (root : ℕ) : Prop :=
  ∃ n, m.nodes root = some n ∧ n.level = 4 ∧ n.cfg = cfg ∧ n.stray = false

/-- The table of `root` manages the top-level slot of `a`. -/
def Covers (m : Mem P) (root a : ℕ) : Prop :=
  ∃ n, m.nodes root = some n ∧ n.level = 4 ∧ n.slots.Contains (pteIndex a 4)

theorem IsRoot.covers {m : Mem P} {cfg : PageTableConfig P} {root a : ℕ}
    (h : IsRoot m cfg root) (ha : cfg.Managed a) : Covers m root a := by
  obtain ⟨n, hn, hl, rfl, -⟩ := h
  refine ⟨n, hn, hl, ?_⟩
  unfold Node.slots NR_LEVELS
  rw [if_pos hl]
  exact ha.index

/-! ## Walks in a well-formed memory -/

namespace WellFormed

variable {m : Mem P}

/-- **Levels along a walk.**  The node that a walk visits at level `l` is live,
recorded with level `l`, and of the configuration of the root; the walk continues
through a managed slot. -/
theorem reach (h : WellFormed m) {root a l q : ℕ} {k : Node P} (hroot : m.nodes root = some k)
    (hk : k.level = 4) (hcov : k.slots.Contains (pteIndex a 4)) (hl : 1 ≤ l) (h4 : l ≤ 4)
    (hq : nodeAt m root a l = some q) :
    ∃ n, m.nodes q = some n ∧ n.level = l ∧ n.slots.Contains (pteIndex a l) ∧
      n.cfg = k.cfg ∧ n.stray = k.stray := by
  induction h4 using Nat.decreasingInduction generalizing q with
  | self =>
      rw [nodeAt_four] at hq
      obtain rfl := Option.some.inj hq
      exact ⟨k, hroot, hk, hcov, rfl, rfl⟩
  | of_succ j hj ih =>
      obtain ⟨p, hp, he⟩ := (nodeAt_eq_some_iff (by omega)).mp hq
      obtain ⟨n, hn, hnl, hslot, hcfg, hstray⟩ := ih (by omega) hp
      rw [Mem.entry_eq hn] at he
      obtain ⟨c, hc, hcl, hccfg, hcstray⟩ := (h.ok p n hn).child _ _ hslot he
      refine ⟨c, hc, by omega, Node.slots_of_level_lt (by omega) (pteIndex_lt _ _), ?_, ?_⟩
      · rw [hccfg, hcfg]
      · rw [hcstray, hstray]

theorem reach_of_covers (h : WellFormed m) {root a l q : ℕ} (hcov : Covers m root a)
    (hl : 1 ≤ l) (h4 : l ≤ 4) (hq : nodeAt m root a l = some q) :
    ∃ n, m.nodes q = some n ∧ n.level = l ∧ n.slots.Contains (pteIndex a l) := by
  obtain ⟨k, hk, hkl, hslot⟩ := hcov
  obtain ⟨n, hn, hnl, hns, -⟩ := h.reach hk hkl hslot hl h4 hq
  exact ⟨n, hn, hnl, hns⟩

/-- **A node has one position.**  If two walks through managed entries visit the
same node, they start at the same root, visit it at the same level, and their
addresses agree above it. -/
theorem nodeAt_inj (h : WellFormed m) {r a l r' b l' q : ℕ} (ha : Covers m r a)
    (hb : Covers m r' b) (hl : 1 ≤ l) (h4 : l ≤ 4) (hl' : 1 ≤ l') (h4' : l' ≤ 4)
    (hqa : nodeAt m r a l = some q) (hqb : nodeAt m r' b l' = some q) :
    r = r' ∧ l = l' ∧ slotNo (l + 1) a = slotNo (l + 1) b := by
  -- the level is recorded in the node
  have hll : l = l' := by
    obtain ⟨n, hn, hnl, -⟩ := h.reach_of_covers ha hl h4 hqa
    obtain ⟨n', hn', hnl', -⟩ := h.reach_of_covers hb hl' h4' hqb
    rw [hn] at hn'
    obtain rfl := Option.some.inj hn'
    omega
  subst hll
  clear hl' h4'
  -- from the root downwards, the unique owner identifies the rest of the position
  induction h4 using Nat.decreasingInduction generalizing q with
  | self =>
      rw [nodeAt_four] at hqa hqb
      refine ⟨?_, rfl, ?_⟩
      · rw [Option.some.inj hqa, Option.some.inj hqb]
      · rw [slotNo_five, slotNo_five]
  | of_succ j hj ih =>
      obtain ⟨p, hp, he⟩ := (nodeAt_eq_some_iff (by omega)).mp hqa
      obtain ⟨p', hp', he'⟩ := (nodeAt_eq_some_iff (by omega)).mp hqb
      obtain ⟨n, hn, -, hslot⟩ := h.reach_of_covers ha (by omega) (by omega) hp
      obtain ⟨n', hn', -, hslot'⟩ := h.reach_of_covers hb (by omega) (by omega) hp'
      rw [Mem.entry_eq hn] at he
      rw [Mem.entry_eq hn'] at he'
      obtain ⟨rfl, hidx⟩ := h.unique ⟨n, hn, hslot, he⟩ ⟨n', hn', hslot', he'⟩
      obtain ⟨hr, -, hs⟩ := ih (by omega) hp hp'
      exact ⟨hr, rfl, (slotNo_eq_iff (by omega) (by omega) a b).mpr ⟨hs, hidx⟩⟩

end WellFormed

end Vostd
