/-
# Making page tables

`PageTable::empty`, `new_kernel_page_table` and `create_user_page_table` of
`page_table/mod.rs`, and the two configurations of the kernel (`vm_space.rs`,
`kspace/mod.rs`).

A user table starts with the kernel half of its root copied from the kernel
table: these entries are not counted and not owned, they repeat the entries of a
table that never gives up its top-level children.
-/
import Vostd.PageTable.Translation

namespace Vostd

open Exec Function

variable {P : Type}

/-! ## Configurations -/

theorem two_le_four : 2 ≤ 4 := by decide

/-- `UserPtConfig`: the lower half, base pages only, every item counted. -/
def userPtConfig (highest : ℕ) (h : highest ≤ 4) : PageTableConfig P where
  topLevelIndexRange := ⟨0, 256⟩
  topLevelCanUnmap := true
  highestTranslationLevel := highest
  vaSignExt := true
  maxItemLevel := 1
  tracked := fun _ => true
  index_lt := by decide
  index_le := by decide
  index_half := by decide
  highest_le := h

/-- `KernelPtConfig`: the upper half, shared at the top level; the first available
bit of the property marks the items that are counted. -/
def kernelPtConfig (highest : ℕ) (h : highest ≤ 4) (avail1 : P → Bool) : PageTableConfig P where
  topLevelIndexRange := ⟨256, 512⟩
  topLevelCanUnmap := false
  highestTranslationLevel := highest
  vaSignExt := true
  maxItemLevel := 4
  tracked := avail1
  index_lt := by decide
  index_le := by decide
  index_half := by decide
  highest_le := h

/-! ## The code -/

/-- The memory before any table is made; `pool` is what the allocator will return. -/
def freshMem (pool : List ℕ) : Mem P where
  nodes := fun _ => none
  refCount := fun _ => 0
  pool := pool

/-- `PageTable::empty`. -/
def emptyTable (cfg : PageTableConfig P) (m : Mem P) : Exec (ℕ × Mem P) := m.alloc cfg NR_LEVELS

/-- `PageTable::new_kernel_page_table`: every top-level entry gets a node. -/
def newKernelPageTable (kcfg : PageTableConfig P) (m : Mem P) : Exec (ℕ × Mem P) := do
  let (root, m) ← emptyTable kcfg m
  let range := kcfg.topLevelIndexRange
  let m ← forRange (fun i m => do
      let (child, m) ← allocIfNone m root i
      let _ ← Exec.unwrap child
      .ok m) range.start (range.stop - range.start) m
  .ok (root, m)

/-- The loop body of `create_user_page_table`. -/
def shareEntry (kroot root i : ℕ) (m : Mem P) : Exec (Mem P) := do
  let k ← m.node kroot
  match k.entries i with
  | .table pt => do
      let u ← m.node root
      .ok (m.setNode root { u with entries := update u.entries i (.table pt) })
  | _ => .error .assertion

/-- `PageTable::create_user_page_table`: a new root that shares the kernel half. -/
def createUserPageTable (kcfg ucfg : PageTableConfig P) (m : Mem P) (kroot : ℕ) :
    Exec (ℕ × Mem P) := do
  let (root, m) ← emptyTable ucfg m
  let range := kcfg.topLevelIndexRange
  let m ← forRange (shareEntry kroot root) range.start (range.stop - range.start) m
  .ok (root, m)

/-! ## New roots -/

/-- The unused frame `pa` becomes the node `k`. -/
structure FreshNode (m m' : Mem P) (pa : ℕ) (k : Node P) : Prop where
  unused : m.refCount pa = 0
  nodes : m'.nodes = update m.nodes pa (some k)
  refCount : m'.refCount = update m.refCount pa 1

namespace FreshNode

variable {m m' : Mem P} {pa : ℕ} {k : Node P}

theorem node (hf : FreshNode m m' pa k) : m'.nodes pa = some k := by
  rw [hf.nodes, update_self]

theorem ne (hf : FreshNode m m' pa k) (h : WellFormed m) {p : ℕ} {n : Node P}
    (hp : m.nodes p = some n) : p ≠ pa := by
  rintro rfl
  exact (h.ok p n hp).alive hf.unused

theorem old (hf : FreshNode m m' pa k) (h : WellFormed m) {p : ℕ} {n : Node P}
    (hp : m.nodes p = some n) : m'.nodes p = some n := by
  rw [hf.nodes, update_of_ne (hf.ne h hp), hp]

theorem cases (hf : FreshNode m m' pa k) {p : ℕ} {n : Node P} (hp : m'.nodes p = some n) :
    (p = pa ∧ n = k) ∨ m.nodes p = some n := by
  by_cases hpa : p = pa
  · subst hpa
    rw [hf.nodes, update_self] at hp
    exact Or.inl ⟨rfl, (Option.some.inj hp).symm⟩
  · rw [hf.nodes, update_of_ne hpa] at hp
    exact Or.inr hp

/-- The other tables do not notice. -/
theorem keeps (hf : FreshNode m m' pa k) (h : WellFormed m) (root : ℕ) :
    Keeps m m' root (fun _ => False) := by
  have hagree : ∀ r x j, Covers m r x → 1 ≤ j → j ≤ 4 → AgreeAt m m' r x j := by
    intro r x j hx hj hj4 q hq
    obtain ⟨n, hn, -⟩ := h.reach_of_covers hx hj hj4 hq
    rw [Mem.entry_eq hn, Mem.entry_eq (hf.old h hn)]
  refine ⟨?_, ?_, ?_⟩
  · intro r n hn hl
    exact ⟨n, hf.old h hn, hl, rfl, rfl, fun _ _ => rfl⟩
  · intro r x hx _ l q hl h4 hq
    rw [nodeAt_eq_of_agree h4 (fun j hj hj4 => hagree r x j hx (by omega) hj4), hq]
  · intro r x hx _
    exact pageWalk_eq_of_agree (fun j hj hj4 => hagree r x j hx hj hj4)

end FreshNode

/-- A new root whose managed entries are absent keeps the memory well formed. -/
theorem WellFormed.addRoot {m m' : Mem P} {pa : ℕ} {k : Node P} (h : WellFormed m)
    (hf : FreshNode m m' pa k) (hl : k.level = 4) (hcount : k.nrChildren = 0)
    (habs : ∀ i, k.slots.Contains i → k.entries i = .absent)
    (hborrow : ∀ i c, i < 512 → ¬k.slots.Contains i → k.entries i = .table c →
      ∃ r n, m.nodes r = some n ∧ n.level = 4 ∧ n.cfg.topLevelCanUnmap = false ∧
        n.slots.Contains i ∧ n.entries i = .table c) : WellFormed m' where
  ok := by
    intro p n hn
    rcases hf.cases hn with ⟨rfl, rfl⟩ | hp
    · refine ⟨by omega, by omega, ?_, ?_, ?_, ?_⟩
      · rw [hf.refCount, update_self]
        exact one_ne_zero
      · rw [hcount, Node.presentCount_eq_zero_iff.mpr habs]
      · intro i c hi he
        rw [habs i hi] at he
        cases he
      · intro i pa prop hi he
        rw [habs i hi] at he
        cases he
    · have hok := h.ok p n hp
      refine ⟨hok.level_pos, hok.level_le, ?_, hok.count, ?_, hok.leaf⟩
      · rw [hf.refCount, update_of_ne (hf.ne h hp)]
        exact hok.alive
      · intro i c hi he
        obtain ⟨d, hd, hrest⟩ := hok.child i c hi he
        exact ⟨d, hf.old h hd, hrest⟩
  unique := by
    have hold : ∀ p i q, Owns m' p i q → Owns m p i q := by
      rintro p i q ⟨n, hn, hs, he⟩
      rcases hf.cases hn with ⟨rfl, rfl⟩ | hp
      · rw [habs i hs] at he
        cases he
      · exact ⟨n, hp, hs, he⟩
    intro p i p' i' q hp hp'
    exact h.unique (hold _ _ _ hp) (hold _ _ _ hp')
  borrowed := by
    intro r n i c hn hi hs he
    have hlend : ∃ r' n', m.nodes r' = some n' ∧ n'.level = 4 ∧ n'.cfg.topLevelCanUnmap = false ∧
        n'.slots.Contains i ∧ n'.entries i = .table c := by
      rcases hf.cases hn with ⟨rfl, rfl⟩ | hp
      · exact hborrow i c hi hs he
      · exact h.borrowed r n i c hp hi hs he
    obtain ⟨r', n', hn', hrest⟩ := hlend
    exact ⟨r', n', hf.old h hn', hrest⟩

/-- A memory without nodes is well formed. -/
theorem wellFormed_of_no_nodes {m : Mem P} (h : ∀ q, m.nodes q = none) : WellFormed m where
  ok := by
    intro q n hn
    rw [h q] at hn
    cases hn
  unique := by
    rintro p i p' i' q ⟨n, hn, -⟩
    rw [h p] at hn
    cases hn
  borrowed := by
    intro r n i c hn
    rw [h r] at hn
    cases hn

/-- **`PageTable::empty`** makes the root of a table. -/
theorem post_emptyTable {m : Mem P} (h : WellFormed m) (cfg : PageTableConfig P) :
    Post Fault.IsPanic (emptyTable cfg m) (fun r => FreshNode m r.2 r.1 (Node.empty cfg 4) ∧
      WellFormed r.2 ∧ IsRoot r.2 cfg r.1) := by
  unfold emptyTable
  refine (post_alloc (Fault.refusing_isPanic.alloc m) cfg NR_LEVELS).mono ?_
  rintro ⟨pa, m'⟩ ⟨h0, hn, hr, -⟩
  have hf : FreshNode m m' pa (Node.empty cfg 4) := ⟨h0, hn, hr⟩
  refine ⟨hf, h.addRoot hf rfl rfl (fun _ _ => rfl) (fun _ _ _ _ he => by cases he), ?_⟩
  exact ⟨Node.empty cfg 4, hf.node, rfl, rfl, rfl⟩

/-! ## The kernel half -/

/-- The root of a kernel table whose entries below slot `k` have got their nodes. -/
structure KernelRoot (m : Mem P) (kcfg : PageTableConfig P) (root k : ℕ) (n : Node P) : Prop where
  node : m.nodes root = some n
  level : n.level = 4
  cfg : n.cfg = kcfg
  stray : n.stray = false
  filled : ∀ i, kcfg.topLevelIndexRange.start ≤ i → i < k → ∃ c, n.entries i = .table c
  empty : ∀ i, k ≤ i → n.entries i = .absent

theorem KernelRoot.slots {m : Mem P} {kcfg : PageTableConfig P} {root k : ℕ} {n : Node P}
    (h : KernelRoot m kcfg root k n) : n.slots = kcfg.topLevelIndexRange := by
  unfold Node.slots NR_LEVELS
  rw [if_pos h.level, h.cfg]

/-- One more entry gets its node. -/
theorem KernelRoot.succ {m m' : Mem P} {kcfg : PageTableConfig P} {root k pa : ℕ} {n c : Node P}
    (h : KernelRoot m kcfg root k n) (ha : Attached m m' root k pa n c) :
    KernelRoot m' kcfg root (k + 1) (n.set k (.table pa)) where
  node := ha.nodes_parent
  level := by rw [Node.set_level, h.level]
  cfg := by rw [Node.set_cfg, h.cfg]
  stray := by rw [Node.set_stray, h.stray]
  filled := by
    intro i hi hik
    rw [Node.set_entries]
    by_cases hk : i = k
    · subst hk
      exact ⟨pa, update_self _ _ _⟩
    · rw [update_of_ne hk]
      exact h.filled i hi (by omega)
  empty := by
    intro i hi
    rw [Node.set_entries, update_of_ne (by omega)]
    exact h.empty i (by omega)

/-- **`new_kernel_page_table`** makes a table all of whose top-level entries are
children: the empty table grows. -/
theorem post_newKernelPageTable {m : Mem P} (h : WellFormed m) (kcfg : PageTableConfig P) :
    Post Fault.IsPanic (newKernelPageTable kcfg m) (fun r => WellFormed r.2 ∧
      (∃ m₀, emptyTable kcfg m = .ok (r.1, m₀) ∧ Grow r.1 m₀ r.2) ∧
      ∃ n, KernelRoot r.2 kcfg r.1 kcfg.topLevelIndexRange.stop n) := by
  have hlt := kcfg.index_lt
  have hle := kcfg.index_le
  unfold newKernelPageTable
  refine Post.bind ((post_emptyTable h kcfg).mono' (fun _ hrun hpost => And.intro hrun hpost)) ?_
  rintro ⟨root, m₀⟩ ⟨hempty, hf, hW₀, -⟩
  refine Post.bind (post_forRange
    (fun i (m' : Mem P) => WellFormed m' ∧ Grow root m₀ m' ∧ ∃ n, KernelRoot m' kcfg root i n)
    _ kcfg.topLevelIndexRange.start m₀ ?_ ?_) ?_
  · refine ⟨hW₀, Grow.refl root m₀, Node.empty kcfg 4, hf.node, rfl, rfl, rfl, ?_, fun _ _ => rfl⟩
    intro i hi hlt
    omega
  · rintro i m' hi hlt' ⟨hW', hg, n, hn⟩
    have hslot : n.slots.Contains i := by
      rw [hn.slots]
      exact ⟨hi, by omega⟩
    have hl := hn.level
    -- an address of the slot
    have hidx : pteIndex (i * pageSize 4) 4 = i := by
      rw [pteIndex_eq, Nat.mul_div_cancel _ (pageSize_pos 4), Nat.mod_eq_of_lt (by omega)]
    have hp : Position m' root (i * pageSize 4) 4 root n :=
      ⟨⟨n, hn.node, hl, by rw [hidx]; exact hslot⟩, by omega, le_rfl, nodeAt_four _ _ _, hn.node⟩
    refine Post.bind (post_allocIfNone (Fault.refusing_isPanic.alloc _) hW' hn.node hslot
      (hn.empty i le_rfl) (by omega)) ?_
    rintro ⟨child, m''⟩ ⟨pa, rfl, ha⟩
    have hstep : Grow root m' m'' := Grow.single (GrowStep.alloc hp (by omega) hn.stray
      (by rw [hidx]; exact hn.empty i le_rfl) (by rw [hidx]; exact ha))
    exact ⟨hstep.wellFormed hW', hg.trans hstep, _, hn.succ ha⟩
  · rintro m' ⟨hW', hg, n, hn⟩
    rw [Nat.add_sub_cancel' hlt.le] at hn
    exact ⟨hW', ⟨m₀, hempty, hg⟩, n, hn⟩

/-- The entries `lo .. k` of the kernel's root. -/
def sharedEntries (kernel : Node P) (lo k : ℕ) (i : ℕ) : Pte P :=
  if lo ≤ i ∧ i < k then kernel.entries i else .absent

/-- The root of a user table while the kernel's entries below slot `k` are shared. -/
def sharedRoot (ucfg : PageTableConfig P) (kernel : Node P) (lo k : ℕ) : Node P :=
  { Node.empty ucfg 4 with entries := sharedEntries kernel lo k }

theorem sharedEntries_succ (kernel : Node P) {lo k : ℕ} (hk : lo ≤ k) :
    update (sharedEntries kernel lo k) k (kernel.entries k) = sharedEntries kernel lo (k + 1) := by
  funext i
  unfold sharedEntries
  by_cases hi : i = k
  · subst hi
    rw [update_self, if_pos ⟨hk, Nat.lt_succ_self i⟩]
  · rw [update_of_ne hi]
    by_cases hlt : lo ≤ i ∧ i < k
    · rw [if_pos hlt, if_pos ⟨hlt.1, by omega⟩]
    · rw [if_neg hlt, if_neg (by omega)]

theorem sharedEntries_self (kernel : Node P) (lo : ℕ) :
    sharedEntries kernel lo lo = fun _ => Pte.absent := by
  funext i
  exact if_neg (by omega)

/-- **`create_user_page_table`** makes a root that shares the kernel half. -/
theorem post_createUserPageTable {m : Mem P} (h : WellFormed m) {kcfg ucfg : PageTableConfig P}
    (hcfg : kcfg.topLevelCanUnmap = false)
    (hdis : ∀ i, ucfg.topLevelIndexRange.Contains i → ¬kcfg.topLevelIndexRange.Contains i)
    {kroot : ℕ} {kernel : Node P} (hk : m.nodes kroot = some kernel) (hk4 : kernel.level = 4)
    (hkc : kernel.cfg = kcfg) :
    Post Fault.IsPanic (createUserPageTable kcfg ucfg m kroot) (fun r =>
      FreshNode m r.2 r.1 (sharedRoot ucfg kernel kcfg.topLevelIndexRange.start
          kcfg.topLevelIndexRange.stop) ∧ WellFormed r.2 ∧ IsRoot r.2 ucfg r.1) := by
  have hle := kcfg.index_lt
  unfold createUserPageTable
  refine (post_emptyTable h ucfg).bind ?_
  rintro ⟨root, m₀⟩ ⟨hf, hw₀, hroot⟩
  -- the invariant of the loop: the entries below `i` are shared
  have hloop := post_forRange (A := Fault.IsPanic) (f := shareEntry kroot root)
    (fun i (m' : Mem P) => FreshNode m m' root
      (sharedRoot ucfg kernel kcfg.topLevelIndexRange.start i))
    (kcfg.topLevelIndexRange.stop - kcfg.topLevelIndexRange.start)
    kcfg.topLevelIndexRange.start m₀ (by
      unfold sharedRoot
      rw [sharedEntries_self]
      exact hf) (by
      intro i m' hi _ hf'
      unfold shareEntry
      refine post_node_bind (hf'.old h hk) ?_
      cases he : kernel.entries i with
      | absent => exact trivial
      | frame _ _ => exact trivial
      | table pt =>
          have hu : m'.nodes root =
              some (sharedRoot ucfg kernel kcfg.topLevelIndexRange.start i) := hf'.node
          refine post_node_bind hu ?_
          refine FreshNode.mk hf'.unused ?_ hf'.refCount
          have hnext := sharedEntries_succ kernel hi
          rw [he] at hnext
          unfold Mem.setNode
          simp only [hf'.nodes, update_idem]
          unfold sharedRoot
          rw [← hnext])
  refine hloop.bind ?_
  intro m' hf'
  rw [Nat.add_sub_cancel' hle.le] at hf'
  show FreshNode m m' root _ ∧ WellFormed m' ∧ IsRoot m' ucfg root
  refine ⟨hf', h.addRoot hf' rfl rfl ?_ ?_, ?_⟩
  · intro i hi
    exact if_neg (fun hin => hdis i hi hin)
  · intro i c hi _ he
    have hin : kcfg.topLevelIndexRange.start ≤ i ∧ i < kcfg.topLevelIndexRange.stop := by
      by_contra hout
      rw [show (sharedRoot ucfg kernel _ _).entries i = Pte.absent from if_neg hout] at he
      cases he
    rw [show (sharedRoot ucfg kernel _ _).entries i = kernel.entries i from if_pos hin] at he
    refine ⟨kroot, kernel, hk, hk4, by rw [hkc]; exact hcfg, ?_, he⟩
    unfold Node.slots NR_LEVELS
    rw [if_pos hk4, hkc]
    exact hin
  · exact ⟨_, hf'.node, rfl, rfl, rfl⟩

end Vostd
