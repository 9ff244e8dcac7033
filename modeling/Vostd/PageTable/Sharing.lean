/-
# The shared kernel half

User tables are made from the kernel table by `create_user_page_table`, which copies
the top-level entries of the kernel half.  Nothing keeps the copies up to date
later; what keeps them right is that the kernel's own top-level entries never
change: they all hold children from the start, and the kernel table never gives up
a top-level child.  A user cursor on the other hand never gets to the kernel half.

`KernelShared` is the invariant, over any interleaving of cursors on the kernel
table and on the user tables with the creation of user tables.
-/
import Vostd.PageTable.System

namespace Vostd

open Exec

variable {P : Type}

/-! ## The system -/

/-- The steps of a machine with the kernel table `kroot`: cursor steps, and the
creation of user tables. -/
inductive SharingStep (kcfg : PageTableConfig P) (kroot : ℕ) :
    Tables P → Action P → Tables P → Prop
  | cursor {s s' : Tables P} {a : Action P} (h : CursorStep s a s') : SharingStep kcfg kroot s a s'
  | createUser {s : Tables P} {ucfg : PageTableConfig P} {root : ℕ} {m' : Mem P}
      (hrange : ucfg.topLevelIndexRange = ⟨0, 256⟩) (hunmap : ucfg.topLevelCanUnmap = true)
      (h : createUserPageTable kcfg ucfg s.mem kroot = .ok (root, m')) :
      SharingStep kcfg kroot s (.createUser ucfg)
        { s with mem := m', tables := (ucfg, root) :: s.tables }

/-- The start: one kernel table, of any contents, whose top-level entries hold
children. -/
structure KernelStart (kcfg : PageTableConfig P) (kroot : ℕ) (s : Tables P) : Prop where
  wellFormed : WellFormed s.mem
  isRoot : IsRoot s.mem kcfg kroot
  children : ∀ i, 256 ≤ i → i < 512 → ∃ c, s.mem.entry kroot i = .table c
  tables : s.tables = [(kcfg, kroot)]
  cursors : ∀ i, s.cursors i = none

/-- The machine from the start `s₀`. -/
def sharingSystem (kcfg : PageTableConfig P) (kroot : ℕ) (s₀ : Tables P) :
    System (Tables P) (Action P) where
  init := fun s => s = s₀
  step := SharingStep kcfg kroot

/-! ## The invariant -/

/-- A table is the kernel table, or a user table. -/
def IsKernelOrUser (kcfg : PageTableConfig P) (kroot : ℕ) (t : PageTableConfig P × ℕ) : Prop :=
  t = (kcfg, kroot) ∨
    (t.1.topLevelIndexRange = ⟨0, 256⟩ ∧ t.1.topLevelCanUnmap = true ∧ t.2 ≠ kroot)

/-- **The invariant**: all tables have the same kernel half, that of the start. -/
structure KernelShared (kcfg : PageTableConfig P) (kroot : ℕ) (s₀ s : Tables P) : Prop where
  ok : TablesOK s
  kernel : (kcfg, kroot) ∈ s.tables
  kind : ∀ t ∈ s.tables, IsKernelOrUser kcfg kroot t
  shared : ∀ t ∈ s.tables, ∀ i, 256 ≤ i → i < 512 → s.mem.entry t.2 i = s₀.mem.entry kroot i

section

variable {kcfg : PageTableConfig P} {kroot : ℕ} {s₀ s s' : Tables P}

/-- The kernel half of a table is fixed. -/
theorem KernelShared.fixed (h : KernelShared kcfg kroot s₀ s) (h₀ : KernelStart kcfg kroot s₀)
    (hunmap : kcfg.topLevelCanUnmap = false) {t : PageTableConfig P × ℕ} (ht : t ∈ s.tables)
    {i : ℕ} (hi : 256 ≤ i) (hi' : i < 512) {n : Node P} (hn : s.mem.nodes t.2 = some n)
    (hl : n.level = 4) (hc : n.cfg = t.1) : n.Fixed i := by
  rcases h.kind t ht with rfl | ⟨hrange, -, -⟩
  · right
    obtain ⟨c, hch⟩ := h₀.children i hi hi'
    have hsh := h.shared _ ht i hi hi'
    rw [Mem.entry_eq hn, hch] at hsh
    exact ⟨by rw [hc]; exact hunmap, c, hsh⟩
  · left
    unfold Node.slots NR_LEVELS
    rw [if_pos hl, hc, hrange]
    intro hin
    have : i < 256 := hin.2
    omega

/-- A cursor step keeps the kernel halves. -/
theorem KernelShared.cursorStep {a : Action P} (h : KernelShared kcfg kroot s₀ s)
    (h₀ : KernelStart kcfg kroot s₀) (hunmap : kcfg.topLevelCanUnmap = false)
    (hs : CursorStep s a s') : KernelShared kcfg kroot s₀ s' := by
  obtain ⟨hok, htables, hch⟩ := hs.effect h.ok
  refine ⟨hok, by rw [htables]; exact h.kernel, by rw [htables]; exact h.kind, ?_⟩
  intro t ht i hi hi'
  rw [htables] at ht
  obtain ⟨n, hn, hl, hc, -⟩ := h.ok.isRoot t ht
  obtain ⟨n', hn', -, -, he⟩ := hch.top hn hl
  rw [Mem.entry_eq hn', he i (h.fixed h₀ hunmap ht hi hi' hn hl hc), ← Mem.entry_eq hn]
  exact h.shared t ht i hi hi'

/-- What `create_user_page_table` makes: a fresh root that repeats the kernel half. -/
theorem KernelShared.newRoot {ucfg : PageTableConfig P} {root : ℕ} {m' : Mem P}
    (h : KernelShared kcfg kroot s₀ s) (hk : kcfg.topLevelIndexRange = ⟨256, 512⟩)
    (hunmap : kcfg.topLevelCanUnmap = false) (hrange : ucfg.topLevelIndexRange = ⟨0, 256⟩)
    (hnew : createUserPageTable kcfg ucfg s.mem kroot = .ok (root, m')) :
    ∃ kernel, s.mem.nodes kroot = some kernel ∧
      FreshNode s.mem m' root (sharedRoot ucfg kernel 256 512) ∧ WellFormed m' ∧
      IsRoot m' ucfg root := by
  obtain ⟨kernel, hkn, hkl, hkc, -⟩ := h.ok.isRoot _ h.kernel
  have hdis : ∀ i, ucfg.topLevelIndexRange.Contains i → ¬kcfg.topLevelIndexRange.Contains i := by
    intro i hi hi'
    rw [hrange] at hi
    rw [hk] at hi'
    have h1 : i < 256 := hi.2
    have h2 : 256 ≤ i := hi'.1
    omega
  obtain ⟨hf, hW, hroot⟩ :=
    (post_createUserPageTable h.ok.wellFormed hunmap hdis hkn hkl hkc).of_ok hnew
  rw [hk] at hf
  exact ⟨kernel, hkn, hf, hW, hroot⟩

theorem KernelShared.createUser {ucfg : PageTableConfig P} {root : ℕ} {m' : Mem P}
    (h : KernelShared kcfg kroot s₀ s) (hk : kcfg.topLevelIndexRange = ⟨256, 512⟩)
    (hunmap : kcfg.topLevelCanUnmap = false) (hrange : ucfg.topLevelIndexRange = ⟨0, 256⟩)
    (hu : ucfg.topLevelCanUnmap = true)
    (hnew : createUserPageTable kcfg ucfg s.mem kroot = .ok (root, m')) :
    KernelShared kcfg kroot s₀ { s with mem := m', tables := (ucfg, root) :: s.tables } := by
  obtain ⟨kernel, hkn, hf, hW, hroot⟩ := h.newRoot hk hunmap hrange hnew
  have hne := hf.ne h.ok.wellFormed hkn
  refine ⟨h.ok.addTable hf hW hroot, List.mem_cons_of_mem _ h.kernel, ?_, ?_⟩
  · intro t ht
    rcases List.mem_cons.mp ht with rfl | ht
    · exact Or.inr ⟨hrange, hu, Ne.symm hne⟩
    · exact h.kind t ht
  · intro t ht i hi hi'
    rcases List.mem_cons.mp ht with rfl | ht
    · rw [← h.shared _ h.kernel i hi hi', Mem.entry_eq hkn]
      show m'.entry root i = kernel.entries i
      rw [Mem.entry_eq hf.node]
      exact if_pos ⟨hi, hi'⟩
    · obtain ⟨n, hn, -⟩ := h.ok.isRoot t ht
      show m'.entry t.2 i = _
      rw [Mem.entry_eq (hf.old h.ok.wellFormed hn), ← Mem.entry_eq hn]
      exact h.shared t ht i hi hi'

theorem sharingSystem_inv {highest : ℕ} {hle : highest ≤ 4} {avail1 : P → Bool}
    (h₀ : KernelStart (kernelPtConfig highest hle avail1) kroot s₀)
    (h : (sharingSystem (kernelPtConfig highest hle avail1) kroot s₀).Reachable s) :
    KernelShared (kernelPtConfig highest hle avail1) kroot s₀ s := by
  refine System.invariant ?_ ?_ h
  · rintro s rfl
    have htables := h₀.tables
    refine ⟨⟨h₀.wellFormed, ?_, ?_, ?_, ?_⟩,
      by rw [htables]; exact List.mem_singleton_self _, ?_, ?_⟩
    · intro t ht
      rw [htables] at ht
      obtain rfl := List.mem_singleton.mp ht
      exact h₀.isRoot
    · intro i l hl
      rw [h₀.cursors i] at hl
      cases hl
    · intro i l hl
      rw [h₀.cursors i] at hl
      cases hl
    · intro i _ l _ _ hl
      rw [h₀.cursors i] at hl
      cases hl
    · intro t ht
      rw [htables] at ht
      exact Or.inl (List.mem_singleton.mp ht)
    · intro t ht i _ _
      rw [htables] at ht
      obtain rfl := List.mem_singleton.mp ht
      rfl
  · intro s a s' _ hI hstep
    cases hstep with
    | cursor hs => exact hI.cursorStep h₀ rfl hs
    | createUser hrange hu hnew => exact hI.createUser rfl rfl hrange hu hnew

/-! ## Walks -/

/-- In the kernel half, every table walks as the kernel table. -/
theorem KernelShared.walk_eq (h : KernelShared kcfg kroot s₀ s) (h₀ : KernelStart kcfg kroot s₀)
    {t : PageTableConfig P × ℕ} (ht : t ∈ s.tables) {x : ℕ} (hx : 256 ≤ pteIndex x 4) :
    pageWalk s.mem t.2 x = pageWalk s.mem kroot x := by
  obtain ⟨c, hc⟩ := h₀.children (pteIndex x 4) hx (pteIndex_lt x 4)
  have h1 := h.shared t ht _ hx (pteIndex_lt x 4)
  have h2 := h.shared _ h.kernel _ hx (pteIndex_lt x 4)
  unfold pageWalk NR_LEVELS
  rw [walkFrom_table (by omega) (h1.trans hc), walkFrom_table (by omega) (h2.trans hc)]

/-- The effect of a step on the memory. -/
theorem SharingStep.changes {a : Action P} (hs : SharingStep kcfg kroot s a s')
    (h : KernelShared kcfg kroot s₀ s) (hk : kcfg.topLevelIndexRange = ⟨256, 512⟩)
    (hunmap : kcfg.topLevelCanUnmap = false) :
    s.Changes a s' ∨ ∃ root, Keeps s.mem s'.mem root (fun _ => False) := by
  cases hs with
  | cursor hs => exact Or.inl (hs.effect h.ok).2.2
  | @createUser _ root _ hrange _ hnew =>
      obtain ⟨kernel, -, hf, -⟩ := h.newRoot hk hunmap hrange hnew
      exact Or.inr ⟨root, hf.keeps h.ok.wellFormed root⟩

theorem Tables.Targets.unique {a : Action P} {r r' : ℕ} (h : s.Targets a r) (h' : s.Targets a r') :
    r = r' := by
  cases a with
  | openCursor i cfg root rg => exact Eq.trans h (Eq.symm h')
  | perform i cfg op =>
      obtain ⟨l, hl, rfl⟩ := h
      obtain ⟨l', hl', rfl⟩ := h'
      rw [hl] at hl'
      rw [Option.some.inj hl']
  | closeCursor i => exact h.elim
  | createUser ucfg => exact h.elim

/-- The user half of a user table changes only by actions on this table. -/
theorem SharingStep.walk_user {a : Action P} (hs : SharingStep kcfg kroot s a s')
    (h : KernelShared kcfg kroot s₀ s) (hk : kcfg.topLevelIndexRange = ⟨256, 512⟩)
    (hunmap : kcfg.topLevelCanUnmap = false) {t : PageTableConfig P × ℕ} (ht : t ∈ s.tables)
    (hne : t.2 ≠ kroot) (hnot : ¬s.Targets a t.2) {x : ℕ} (hx : pteIndex x 4 < 256) :
    pageWalk s'.mem t.2 x = pageWalk s.mem t.2 x := by
  obtain ⟨n, hn, hl, hc, -⟩ := h.ok.isRoot t ht
  have hcov : Covers s.mem t.2 x := by
    refine ⟨n, hn, hl, ?_⟩
    unfold Node.slots NR_LEVELS
    rw [if_pos hl, hc]
    rcases h.kind t ht with rfl | ⟨hrange, -, -⟩
    · exact absurd rfl hne
    · rw [hrange]
      exact ⟨Nat.zero_le _, hx⟩
  rcases hs.changes h hk hunmap with (hm | ⟨root, htgt, hkeep⟩) | ⟨root, hkeep⟩
  · rw [hm]
  · refine hkeep.walk t.2 x hcov ?_
    rintro rfl
    exact absurd htgt hnot
  · exact hkeep.walk t.2 x hcov (fun _ hf => hf)

/-- An action on a user table changes no other table. -/
theorem SharingStep.walk_other {a : Action P} (hs : SharingStep kcfg kroot s a s')
    (h : KernelShared kcfg kroot s₀ s) (hk : kcfg.topLevelIndexRange = ⟨256, 512⟩)
    (hunmap : kcfg.topLevelCanUnmap = false) {u t : PageTableConfig P × ℕ} (hu : u ∈ s.tables)
    (hne : u.2 ≠ kroot) (htgt : s.Targets a u.2) (ht : t ∈ s.tables) (htu : t.2 ≠ u.2) (x : ℕ) :
    pageWalk s'.mem t.2 x = pageWalk s.mem t.2 x := by
  obtain ⟨n, hn, hl, -⟩ := h.ok.isRoot t ht
  rcases hs.changes h hk hunmap with (hm | ⟨root, htgt', hkeep⟩) | ⟨root, hkeep⟩
  · rw [hm]
  · obtain rfl := htgt.unique htgt'
    refine hkeep.walk_all h.ok.wellFormed hn hl (fun heq => absurd heq htu) ?_
    -- a user table may give up its top-level children
    intro k hk' hcan
    obtain ⟨k', hk'', -, hc, -⟩ := h.ok.isRoot u hu
    rw [hk'] at hk''
    obtain rfl := Option.some.inj hk''
    rcases h.kind u hu with rfl | ⟨-, hcan', -⟩
    · exact absurd rfl hne
    · rw [hc, hcan'] at hcan
      cases hcan
  · exact hkeep.walk_all h.ok.wellFormed hn hl (fun _ hf => hf) (fun _ _ _ hf => hf)

/-- **Sharing and isolation.**  In every state of every run: in the kernel half, all
tables walk as the kernel table; their top-level entries there are those of the
start; a step changes the user half of a user table only if it is a step on this
table; and a step on a user table changes no other table. -/
theorem kernel_half_shared_and_isolated {highest : ℕ} {hle : highest ≤ 4} {avail1 : P → Bool}
    (h₀ : KernelStart (kernelPtConfig highest hle avail1) kroot s₀)
    (h : (sharingSystem (kernelPtConfig highest hle avail1) kroot s₀).Reachable s) :
    (∀ t ∈ s.tables, ∀ x, 256 ≤ pteIndex x 4 →
      pageWalk s.mem t.2 x = pageWalk s.mem kroot x) ∧
    (∀ t ∈ s.tables, ∀ i, 256 ≤ i → i < 512 → s.mem.entry t.2 i = s₀.mem.entry kroot i) ∧
    ∀ a s', SharingStep (kernelPtConfig highest hle avail1) kroot s a s' →
      (∀ t ∈ s.tables, t.2 ≠ kroot → ¬s.Targets a t.2 → ∀ x, pteIndex x 4 < 256 →
        pageWalk s'.mem t.2 x = pageWalk s.mem t.2 x) ∧
      (∀ u ∈ s.tables, u.2 ≠ kroot → s.Targets a u.2 → ∀ t ∈ s.tables, t.2 ≠ u.2 → ∀ x,
        pageWalk s'.mem t.2 x = pageWalk s.mem t.2 x) := by
  have hI := sharingSystem_inv h₀ h
  refine ⟨fun t ht x hx => hI.walk_eq h₀ ht hx, hI.shared, ?_⟩
  intro a s' hs
  refine ⟨fun t ht hne hnot x hx => hs.walk_user hI rfl rfl ht hne hnot hx, ?_⟩
  intro u hu hne htgt t ht htu x
  exact hs.walk_other hI rfl rfl hu hne htgt ht htu x

/-- The kernel configuration of x86 without items that are counted. -/
abbrev sampleKernelConfig : PageTableConfig Unit := kernelPtConfig 2 two_le_four (fun _ => false)

/-- A page in the user half of a table, and one in the kernel half. -/
def sampleUserOps : List (Op (userPtConfig (P := Unit) 2 two_le_four)) :=
  [.map ⟨⟨0x7000, 1, ()⟩, by decide⟩]

def sampleKernelOps : List (Op sampleKernelConfig) := [.map ⟨⟨0x9000, 1, ()⟩, by decide⟩]

/-- A kernel table and a user table made from it; a cursor maps a page in the user table, and
another one a page in the kernel table. -/
def sharingSample : Exec ((ℕ × Mem Unit) × (ℕ × Mem Unit) × Mem Unit) := do
  let (kroot, m) ← newKernelPageTable sampleKernelConfig
    (freshMem ((List.range 263).map (fun i => 4096 * (i + 1))))
  let (uroot, m₁) ← createUserPageTable sampleKernelConfig (userPtConfig 2 two_le_four) m kroot
  let (_, m₂, _) ← openRun (userPtConfig 2 two_le_four) m₁ uroot ⟨0, 4096⟩ sampleUserOps
  let (_, m₃, _) ← openRun sampleKernelConfig m₂ kroot ⟨2 ^ 64 - 8192, 2 ^ 64 - 4096⟩
    sampleKernelOps
  .ok ((kroot, m), (uroot, m₁), m₃)

/-- The user table shows the page that was mapped in the kernel table later, and the kernel
table does not show the page of the user table. -/
theorem kernel_half_shared_sample : ∃ (s₀ s : Tables Unit) (kroot uroot : ℕ),
    KernelStart sampleKernelConfig kroot s₀ ∧
    (sharingSystem sampleKernelConfig kroot s₀).Reachable s ∧
    s.tables = [(userPtConfig 2 two_le_four, uroot), (sampleKernelConfig, kroot)] ∧
    pageWalk s.mem uroot 0 = some (0x7000, ()) ∧ pageWalk s.mem kroot 0 = none ∧
    pageWalk s.mem kroot (2 ^ 64 - 8192) = some (0x9000, ()) ∧
    ∀ t ∈ s.tables, ∀ x, 256 ≤ pteIndex x 4 →
      pageWalk s.mem t.2 x = pageWalk s.mem kroot x := by
  obtain ⟨⟨⟨kroot, m⟩, ⟨uroot, m₁⟩, m₃⟩, hs, hp⟩ := exists_of_returns (show sharingSample.returns
    (fun r => r.2.1.1 ≠ r.1.1 ∧ pageWalk r.2.2 r.2.1.1 0 = some (0x7000, ()) ∧
      pageWalk r.2.2 r.1.1 0 = none ∧
      pageWalk r.2.2 r.1.1 (2 ^ 64 - 8192) = some (0x9000, ())) = true by decide +kernel)
  obtain ⟨hne, hwalk⟩ := of_decide_eq_true hp
  obtain ⟨⟨kroot, m⟩, hk, hs⟩ := bind_eq_ok.mp hs
  obtain ⟨⟨uroot, m₁⟩, hu, hs⟩ := bind_eq_ok.mp hs
  obtain ⟨⟨_, m₂, c₂⟩, huser, hs⟩ := bind_eq_ok.mp hs
  obtain ⟨⟨_, m₃, c₃⟩, hkernel, hs⟩ := bind_eq_ok.mp hs
  cases hs
  obtain ⟨hW, -, n, hn⟩ :=
    (post_newKernelPageTable (wellFormed_of_no_nodes (fun _ => rfl)) _).of_ok hk
  have h₀ : KernelStart sampleKernelConfig kroot
      ⟨m, [(sampleKernelConfig, kroot)], fun _ => none⟩ := by
    refine ⟨hW, ⟨n, hn.node, hn.level, hn.cfg, hn.stray⟩, ?_, rfl, fun _ => rfl⟩
    intro i hi hi'
    obtain ⟨c, hc⟩ := hn.filled i hi hi'
    exact ⟨c, (Mem.entry_eq hn.node i).trans hc⟩
  have hstart : (sharingSystem sampleKernelConfig kroot
      ⟨m, [(sampleKernelConfig, kroot)], fun _ => none⟩).Reachable
      ⟨m, [(sampleKernelConfig, kroot)], fun _ => none⟩ := System.Reachable.init rfl
  have h₁ := hstart.step (SharingStep.createUser rfl rfl hu)
  have h₂ := reachable_openRun (i := 0) h₁ List.mem_cons_self rfl nofun
    (fun _ _ h => .cursor h) (fun _ _ _ _ h => .cursor h) huser
  have h₃ := reachable_openRun (i := 1) h₂ (List.mem_cons_of_mem _ (List.mem_singleton_self _)) rfl
    ?_ (fun _ _ h => .cursor h) (fun _ _ _ _ h => .cursor h) hkernel
  · exact ⟨_, _, kroot, uroot, h₀, h₃, rfl, hwalk.1, hwalk.2.1, hwalk.2.2,
      (kernel_half_shared_and_isolated h₀ h₃).1⟩
  · intro j l hl
    by_cases hj : j = 0
    · rw [hj] at hl
      obtain rfl := Option.some.inj hl
      exact hne
    · simp [hj] at hl

end

end Vostd
